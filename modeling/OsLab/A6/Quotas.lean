import Mathlib.Data.Multiset.Range
import OsLab.A6.Refusals

/-!
# Who gets the places (A6/session.c)

| here | there |
| --- | --- |
| `Chamber.came`      | all those for whom `main` has printed "arrives" |
| `Chamber.Closed`    | what makes `main` take one of the branches at :320, :353, :391 |

The queue gives the arrivals out by their times, and the number of a visitor is the count of those of its class at that
moment. A class whose door has been closed is not let in again (`Closed.step`), so the places of the doctor go to those
of each class who came first.
-/

namespace OsLab.A6

namespace Chamber

variable {s s' t : Chamber} {i : Nat} {k l : Kind} {v w : Visitor} {next e : Event} {reason : Reason}
  {arrivals : List Event}

def came (s : Chamber) : List Visitor := s.admitted ++ s.turnedAway.map Refusal.visitor

/-- The numbers of the visitors of a class. -/
def numbers (s : Chamber) (k : Kind) : Multiset Nat :=
  ((s.came : Multiset Visitor).filter fun v => kindOf v.event.type = some k).map Visitor.id

/-- Nobody of the class is admitted any more. -/
def Closed (s : Chamber) : Kind → Prop
  | .reporter => s.Full
  | .patient => maxPatients ≤ s.num .patient
  | .salesrep => maxSalesreps ≤ s.num .salesrep

theorem mem_came : v ∈ s.came ↔ v ∈ s.admitted ∨ ∃ r ∈ s.turnedAway, r.visitor = v := by
  simp [came]

/-! ## Who comes in a step -/

/-- `next` is looked at and gets the next number of its class, in the queue it is found no more. -/
structure Comes (s : Chamber) (next : Event) (k : Kind) (s' : Chamber) : Prop where
  arrives : s.Arrives next
  kind : kindOf next.type = some k
  left : s.left = next ::ₘ s'.left
  num : s'.num = Function.update s.num k (s.num k + 1)
  door : s'.admitted = s.admitted ++ [⟨s.num k + 1, next⟩] ∧ s'.turnedAway = s.turnedAway ∧
      (s.closeSession next).refusal next k = none ∨
    s'.admitted = s.admitted ∧ ∃ reason, s'.turnedAway = s.turnedAway ++ [⟨⟨s.num k + 1, next⟩, reason⟩] ∧
      (s.closeSession next).refusal next k = some reason

/-- Nobody comes. -/
structure Nobody (s s' : Chamber) : Prop where
  left : s'.left = s.left
  num : s'.num = s.num
  admitted : s'.admitted = s.admitted
  turnedAway : s'.turnedAway = s.turnedAway

theorem step_came (I : SchedInv s) (F : s.Fits) (h : s.step i = some s') : s.Nobody s' ∨ ∃ next k, s.Comes next k s' := by
  cases moved_of_step h with
  | drained | returned => exact .inl ⟨rfl, rfl, rfl, rfl⟩
  | doctorEvent next hpc hpos hhead hdoctor =>
    have hleft := left_delevent_doctor { s.closeSession next with E := s.E.delevent } hpos hhead hdoctor rfl
    exact .inl ⟨hleft, by simp, by simp, by simp⟩
  | ahead next | resume next => exact .inl ⟨left_congr (closeSession_E s next), by simp, by simp, by simp⟩
  | refused next k reason ha hkind hreason =>
    refine .inr ⟨next, k, ha, hkind, left_refused ha k reason, ?_, .inr ⟨?_, reason, ?_, hreason⟩⟩
    · simp [turnAway]
    · simp [turnAway]
    · simp [turnAway]
  | admitted next k d n ha hkind hreason =>
    refine .inr ⟨next, k, ha, hkind, left_admitted ha k d n, ?_, .inl ⟨?_, ?_, hreason⟩⟩
    · simp [admitVisitor]
    · simp [admitVisitor]
    · simp [admitVisitor]
  | visited next k l v ha hkind hreason hnow hfree hturn hv =>
    refine .inr ⟨next, k, ha, hkind, left_served I F ha hkind hreason hnow hv, ?_, .inl ⟨?_, ?_, hreason⟩⟩
    · simp [finish, visit, admitVisitor]
    · simp [finish, visit, admitVisitor]
    · simp [finish, visit, admitVisitor]
  | other next s' ha hkind => exact absurd hkind (I.types next ha.mem_left)
  | others next k v | pending k v => exact .inl ⟨left_visit s k i v, rfl, rfl, rfl⟩

theorem Nobody.came (N : s.Nobody s') : s'.came = s.came := by
  rw [Chamber.came, N.admitted, N.turnedAway, Chamber.came]

/-- The list of those who came has one more. -/
theorem Comes.came (H : s.Comes next k s') : (s'.came : Multiset Visitor) = ⟨s.num k + 1, next⟩ ::ₘ s.came := by
  rw [Multiset.cons_coe, Multiset.coe_eq_coe]
  rcases H.door with ⟨hadmitted, hturned, -⟩ | ⟨hadmitted, reason, hturned, -⟩
  · rw [Chamber.came, hadmitted, hturned, Chamber.came, List.append_assoc]
    exact List.perm_middle
  · rw [Chamber.came, hadmitted, hturned, Chamber.came, List.map_append, ← List.append_assoc]
    exact List.perm_append_singleton _ _

theorem Comes.mem_came (H : s.Comes next k s') : v ∈ s'.came ↔ v = ⟨s.num k + 1, next⟩ ∨ v ∈ s.came := by
  rw [← Multiset.mem_coe, H.came, Multiset.mem_cons, Multiset.mem_coe]

theorem Comes.num_le (H : s.Comes next k s') (l : Kind) : s.num l ≤ s'.num l := by
  rw [H.num]
  by_cases hl : l = k
  · simp [hl]
  · simp [hl]

/-! ## The doors -/

/-- When the quotas have been served they stay so. -/
theorem full_step (hfull : s.Full) (I : SchedInv s) (C : Counts s) (h : s.step i = some s') : s'.Full := by
  cases moved_of_step h with
  | drained | returned => exact hfull
  | doctorEvent next | ahead next | resume next | refused next | admitted next =>
    exact (full_congr (closeSession_served s next)).2 hfull
  | visited next k l v ha hkind hreason =>
    exact absurd hfull (not_full_of_admitted C (by simp [ha.pc]) hreason)
  | other next s' ha hkind => exact absurd hkind (I.types next ha.mem_left)
  | others next k v hpc hlt hturn hv | pending k v hpc hturn hv => exact absurd hfull (not_full_of_waiting C hv)

/-- **A door that is closed stays closed.** -/
theorem Closed.step (hclosed : s.Closed k) (I : SchedInv s) (F : s.Fits) (C : Counts s) (h : s.step i = some s') :
    s'.Closed k := by
  have hnum : ∀ l, s.num l ≤ s'.num l := by
    intro l
    rcases step_came I F h with hnobody | ⟨next, k, hcomes⟩
    · rw [hnobody.num]
    · exact hcomes.num_le l
  cases k with
  | reporter => exact full_step hclosed I C h
  | patient => exact hclosed.trans (hnum .patient)
  | salesrep => exact hclosed.trans (hnum .salesrep)

theorem not_closed_of_admitted (C : Counts s) (ha : s.Arrives next) (h : (s.closeSession next).refusal next k = none) :
    ¬ s.Closed k := by
  intro hclosed
  cases k with
  | reporter => exact not_full_of_admitted C (by simp [ha.pc]) h hclosed
  | patient =>
    have hquota : maxPatients ≤ s.num .patient := hclosed
    rw [refusal, closeSession_num, if_pos hquota] at h
    cases h
  | salesrep =>
    have hquota : maxSalesreps ≤ s.num .salesrep := hclosed
    rw [refusal, closeSession_num, if_pos hquota] at h
    cases h

theorem closed_of_refused (C : Counts s) (ha : s.Arrives next)
    (h : (s.closeSession next).refusal next k = some reason) : s.Closed k := by
  have C' := (C.closeSession (by simp [ha.pc]) next).1
  have hpc : (s.closeSession next).pc ≠ .returned := by simp [ha.pc]
  cases k with
  | reporter =>
    rw [refusal, Option.ite_none_right_eq_some] at h
    exact (full_congr (closeSession_served s next)).1 (C'.done hpc (done_of_isOver C' hpc h.1))
  | patient | salesrep =>
    rw [refusal, closeSession_num, Option.ite_none_right_eq_some] at h
    exact h.1

/-! ## The order at the door -/

structure DoorInv (s : Chamber) : Prop where
  numbers : ∀ k, s.numbers k = (Multiset.range (s.num k)).map (· + 1)
  behind : ∀ v ∈ s.came, ∀ e ∈ s.left, key v.event ≤ key e
  order : ∀ v ∈ s.came, ∀ w ∈ s.came, kindOf v.event.type = kindOf w.event.type → v.id < w.id →
    key v.event ≤ key w.event
  closed : ∀ r ∈ s.turnedAway, ∀ k, kindOf r.visitor.event.type = some k → s.Closed k
  doors : ∀ v ∈ s.admitted, ∀ r ∈ s.turnedAway, kindOf v.event.type = kindOf r.visitor.event.type → v.id < r.visitor.id

namespace DoorInv

theorem init (arrivals : List Event) : DoorInv (Chamber.init arrivals) where
  numbers _ := rfl
  behind _ hv := absurd hv List.not_mem_nil
  order _ hv := absurd hv List.not_mem_nil
  closed _ hr := absurd hr List.not_mem_nil
  doors _ hv := absurd hv List.not_mem_nil

/-- The numbers given so far. -/
theorem id_le (D : DoorInv s) (hv : v ∈ s.came) (hk : kindOf v.event.type = some k) : v.id ≤ s.num k := by
  have hmem : v.id ∈ s.numbers k := Multiset.mem_map_of_mem _ (Multiset.mem_filter.2 ⟨Multiset.mem_coe.2 hv, hk⟩)
  rw [D.numbers k, Multiset.mem_map] at hmem
  obtain ⟨n, hn, hid⟩ := hmem
  rw [Multiset.mem_range] at hn
  omega

theorem nobody (D : DoorInv s) (N : s.Nobody s') (hclosed : ∀ k, s.Closed k → s'.Closed k) : DoorInv s' where
  numbers k := by
    rw [Chamber.numbers, N.came, N.num]
    exact D.numbers k
  behind := by
    rw [N.came, N.left]
    exact D.behind
  order := by
    rw [N.came]
    exact D.order
  closed r hr k hk := hclosed k (D.closed r (N.turnedAway ▸ hr) k hk)
  doors := by
    rw [N.admitted, N.turnedAway]
    exact D.doors

theorem numbers_comes (D : DoorInv s) (H : s.Comes next k s') (l : Kind) :
    s'.numbers l = (Multiset.range (s'.num l)).map (· + 1) := by
  rw [Chamber.numbers, H.came, H.num]
  by_cases hl : l = k
  · subst hl
    rw [Multiset.filter_cons_of_pos (p := fun v : Visitor => kindOf v.event.type = some l) _ H.kind, Multiset.map_cons, Function.update_self, Multiset.range_succ,
      Multiset.map_cons, ← D.numbers l]
    rfl
  · have hother : ¬ kindOf next.type = some l := by
      intro h
      exact hl (Option.some.inj (h.symm.trans H.kind))
    rw [Multiset.filter_cons_of_neg (p := fun v : Visitor => kindOf v.event.type = some l) _ hother, Function.update_of_ne hl]
    exact D.numbers l

/-- The visitor who comes is behind all those who came, and before all those who are left. -/
theorem behind_comes (D : DoorInv s) (I : SchedInv s) (H : s.Comes next k s') (hv : v ∈ s'.came) (he : e ∈ s'.left) :
    key v.event ≤ key e := by
  have hmem : e ∈ s.left := by
    rw [H.left]
    exact Multiset.mem_cons_of_mem he
  rcases H.mem_came.1 hv with rfl | hold
  · exact I.head_le H.arrives.pos H.arrives.head hmem
  · exact D.behind v hold e hmem

theorem order_comes (D : DoorInv s) (H : s.Comes next k s') (hv : v ∈ s'.came) (hw : w ∈ s'.came)
    (hkind : kindOf v.event.type = kindOf w.event.type) (hlt : v.id < w.id) : key v.event ≤ key w.event := by
  rcases H.mem_came.1 hw with rfl | hw
  · rcases H.mem_came.1 hv with rfl | hv
    · exact absurd hlt (lt_irrefl _)
    · exact D.behind v hv next H.arrives.mem_left
  · rcases H.mem_came.1 hv with rfl | hv
    · -- the new number is the largest of its class
      have hle := D.id_le hw (hkind.symm.trans H.kind)
      have hlt' : s.num k + 1 < w.id := hlt
      omega
    · exact D.order v hv w hw hkind hlt

theorem closed_comes (D : DoorInv s) (C : Counts s) (H : s.Comes next k s') (hclosed : ∀ k, s.Closed k → s'.Closed k)
    {r : Refusal} (hr : r ∈ s'.turnedAway) (hl : kindOf r.visitor.event.type = some l) : s'.Closed l := by
  rcases H.door with ⟨-, hturned, -⟩ | ⟨-, reason, hturned, hreason⟩
  · exact hclosed l (D.closed r (hturned ▸ hr) l hl)
  · rw [hturned, List.mem_append, List.mem_singleton] at hr
    rcases hr with hr | rfl
    · exact hclosed l (D.closed r hr l hl)
    · obtain rfl : k = l := Option.some.inj (H.kind.symm.trans hl)
      exact hclosed k (closed_of_refused C H.arrives hreason)

theorem doors_comes (D : DoorInv s) (C : Counts s) (H : s.Comes next k s') (hv : v ∈ s'.admitted) {r : Refusal}
    (hr : r ∈ s'.turnedAway) (hkind : kindOf v.event.type = kindOf r.visitor.event.type) : v.id < r.visitor.id := by
  rcases H.door with ⟨hadmitted, hturned, hreason⟩ | ⟨hadmitted, reason, hturned, -⟩
  · rw [hadmitted, List.mem_append, List.mem_singleton] at hv
    rw [hturned] at hr
    rcases hv with hv | rfl
    · exact D.doors v hv r hr hkind
    · -- nobody is admitted behind a refusal
      have hclosed := D.closed r hr k (hkind.symm.trans H.kind)
      exact absurd hclosed (not_closed_of_admitted C H.arrives hreason)
  · rw [hadmitted] at hv
    rw [hturned, List.mem_append, List.mem_singleton] at hr
    rcases hr with hr | rfl
    · exact D.doors v hv r hr hkind
    · exact Nat.lt_succ_of_le (C.ids v hv k (hkind.trans H.kind))

theorem step (D : DoorInv s) (I : SchedInv s) (F : s.Fits) (C : Counts s) (h : s.step i = some s') : DoorInv s' := by
  have hclosed : ∀ k, s.Closed k → s'.Closed k := fun k hk => hk.step I F C h
  rcases step_came I F h with hnobody | ⟨next, k, H⟩
  · exact D.nobody hnobody hclosed
  · exact ⟨D.numbers_comes H, fun v hv e he => D.behind_comes I H hv he,
      fun v hv w hw => D.order_comes H hv hw, fun r hr l => D.closed_comes C H hclosed hr,
      fun v hv r hr => D.doors_comes C H hv hr⟩

end DoorInv

/-! ## Runs -/

/-- What is known of the door behind `n` steps. -/
structure QuotaInv (arrivals : List Event) (n : Nat) (s : Chamber) : Prop where
  visitors : VisitorsInv arrivals n s
  numbered : s.Numbered
  door : DoorInv s

namespace QuotaInv

variable {n : Nat}

theorem init (htypes : ∀ e ∈ arrivals, kindOf e.type ≠ none) (hdur : ∀ e ∈ arrivals, 0 ≤ e.duration) :
    QuotaInv arrivals 0 (Chamber.init arrivals) := ⟨.init htypes hdur, fun _ => rfl, .init arrivals⟩

theorem step (Q : QuotaInv arrivals n s) (F : s.Fits) (h : s.step i = some s') : QuotaInv arrivals (n + 1) s' :=
  ⟨Q.visitors.step F h, Q.numbered.step Q.visitors.sched h, Q.door.step Q.visitors.sched F Q.visitors.counts h⟩

theorem run (Q : QuotaInv arrivals n s) {as : List Nat} (h : Trans.run Chamber.step s as = some s')
    (hfits : Trans.Along Chamber.step Fits s as) : QuotaInv arrivals (n + as.length) s' := by
  refine Trans.run_inv_along (I := fun as t => QuotaInv arrivals (n + as.length) t) Q ?_ h hfits
  intro as t a t' Q' F ht
  rw [List.length_append, ← Nat.add_assoc]
  exact Q'.step F ht

/-- At the end the number of a class is that of its arrivals. -/
theorem num_eq (Q : QuotaInv arrivals n s) (hend : s.pc = .returned) (k : Kind) :
    s.num k = arrivals.countP fun e => kindOf e.type = some k := by
  have hbalance := Q.visitors.balance
  rw [(Q.visitors.ended hend).1, Multiset.zero_add] at hbalance
  rw [Q.numbered k, hbalance, Multiset.coe_countP]

/-- At the end as many have been served as there are places. -/
theorem served_eq (Q : QuotaInv arrivals n s) (hend : s.pc = .returned) :
    countKind .patient s.seen = min (arrivals.countP fun e => kindOf e.type = some .patient) maxPatients ∧
      countKind .salesrep s.seen = min (arrivals.countP fun e => kindOf e.type = some .salesrep) maxSalesreps := by
  have hall : s.waitingAll = 0 := by simp [waitingAll, (Q.visitors.ended hend).2]
  have hadmitted := Q.visitors.counts.admitted
  rw [hall, Multiset.add_zero] at hadmitted
  rw [← hadmitted, Q.visitors.counts.patients, Q.visitors.counts.salesreps, Q.num_eq hend, Q.num_eq hend]
  exact ⟨rfl, rfl⟩

end QuotaInv

/-- **The places go to those who come first.** In every run in which all visits fit the visitors of a class have the
numbers 1, 2, … in the order of their times, nobody is left who came before one of them, and nobody is admitted behind one
of the same class who was turned away; at the end as many patients and sales reps have been served as have come, up to the
quotas. -/
theorem places_in_order (arrivals : List Event) (htypes : ∀ e ∈ arrivals, kindOf e.type ≠ none)
    (hdur : ∀ e ∈ arrivals, 0 ≤ e.duration) (as : List Nat) (s : Chamber)
    (h : Trans.run Chamber.step (Chamber.init arrivals) as = some s)
    (hfits : Trans.Along Chamber.step Fits (Chamber.init arrivals) as) :
    (∀ k, s.numbers k = (Multiset.range (s.num k)).map (· + 1)) ∧
    (∀ v ∈ s.came, ∀ w ∈ s.came, kindOf v.event.type = kindOf w.event.type → v.id < w.id →
      v.event.time ≤ w.event.time) ∧
    (∀ v ∈ s.came, ∀ e ∈ s.left, v.event.time ≤ e.time) ∧
    (∀ v ∈ s.admitted, ∀ r ∈ s.turnedAway, kindOf v.event.type = kindOf r.visitor.event.type →
      v.id < r.visitor.id) ∧
    (s.pc = .returned →
      countKind .patient s.seen = min (arrivals.countP fun e => kindOf e.type = some .patient) 25 ∧
      countKind .salesrep s.seen = min (arrivals.countP fun e => kindOf e.type = some .salesrep) 3) := by
  have Q := (QuotaInv.init htypes hdur).run h hfits
  have htime : ∀ {a b : Event}, key a ≤ key b → a.time ≤ b.time := by
    intro a b hle
    rcases (key_le_iff a b).1 hle with hlt | hsame
    · exact hlt.le
    · exact hsame.1.le
  exact ⟨Q.door.numbers, fun v hv w hw hkind hlt => htime (Q.door.order v hv w hw hkind hlt),
    fun v hv e he => htime (Q.door.behind v hv e he), Q.door.doors, Q.served_eq⟩

/-- Four sales reps, the last of whom is turned away. -/
theorem places_in_order_four : ∃ s : Chamber,
    Trans.run Chamber.step (Chamber.init [⟨'S', 7, 5⟩, ⟨'S', -3, 5⟩, ⟨'S', 9, 5⟩, ⟨'S', 1, 5⟩])
      (List.replicate 15 0) = some s ∧
      s.turnedAway = [⟨⟨4, ⟨'S', 9, 5⟩⟩, .quotaFull⟩] ∧ countKind .salesrep s.seen = min 4 3 ∧
      ∀ v ∈ s.admitted, kindOf v.event.type = some .salesrep → v.id < 4 := by
  obtain ⟨s, hs, hfits, hend⟩ := Trans.exists_along_of_run Chamber.step Fits
    (Chamber.init [⟨'S', 7, 5⟩, ⟨'S', -3, 5⟩, ⟨'S', 9, 5⟩, ⟨'S', 1, 5⟩]) (List.replicate 15 0)
    (fun s => decide (s.pc = .returned ∧ s.turnedAway = [⟨⟨4, ⟨'S', 9, 5⟩⟩, .quotaFull⟩])) (by decide +kernel)
  obtain ⟨hpc, hturned⟩ := of_decide_eq_true hend
  obtain ⟨-, -, -, hdoors, hserved⟩ := places_in_order _ (by decide) (by decide) _ s hs hfits
  refine ⟨s, hs, hturned, (hserved hpc).2, fun v hv hkind => ?_⟩
  exact hdoors v hv ⟨⟨4, ⟨'S', 9, 5⟩⟩, .quotaFull⟩ (hturned ▸ List.mem_singleton_self _) hkind

end Chamber

end OsLab.A6
