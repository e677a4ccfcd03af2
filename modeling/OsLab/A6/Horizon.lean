import Mathlib.Algebra.BigOperators.Group.Multiset.Basic
import Mathlib.Algebra.Order.BigOperators.Group.List
import Mathlib.Algebra.Order.BigOperators.Group.Multiset
import Mathlib.Algebra.Order.Ring.Int
import OsLab.A6.Visitors

/-!
# How far the clock goes (A6/session.c)

Nothing but visits makes `current_time` pass the last arrival (`clock_le_step`), and these take no longer than all visits
together (`busy_le`). So the clock does not wrap when all of them end by `INT_MAX` even if they begin with the last arrival:
`along_of_ample`.
-/

namespace OsLab.A6

namespace Chamber

variable {s s' : Chamber} {i n : Nat} {next e : Event} {arrivals : List Event} {T : Int}

/-- The time the doctor has spent with visitors. -/
def busy (s : Chamber) : Int := (s.served.map fun x => x.visitor.event.duration).sum

theorem busy_visit (s : Chamber) (k : Kind) (v : Visitor) : (s.visit k i v).busy = s.busy + v.event.duration := by
  simp [busy, visit]

theorem busy_congr (hserved : s'.served = s.served) : s'.busy = s.busy := by rw [busy, hserved, busy]

theorem busy_nonneg (I : SchedInv s) : 0 ≤ s.busy := by
  apply List.sum_nonneg
  intro d hd
  obtain ⟨x, hx, rfl⟩ := List.mem_map.1 hd
  exact I.durations.2 x hx

/-- Some of the visits take no longer than all of them. -/
theorem sum_duration_le {es : Multiset Event} (hes : es ≤ arrivals) (hdur : ∀ e ∈ arrivals, 0 ≤ e.duration) :
    (es.map Event.duration).sum ≤ (arrivals.map Event.duration).sum := by
  obtain ⟨rest, hrest⟩ := Multiset.le_iff_exists_add.1 hes
  have hsum := congrArg (fun es => (es.map Event.duration).sum) hrest
  simp only [Multiset.map_add, Multiset.sum_add, Multiset.map_coe, Multiset.sum_coe] at hsum
  have hpos : 0 ≤ (rest.map Event.duration).sum := by
    apply Multiset.sum_nonneg
    intro d hd
    obtain ⟨e, he, rfl⟩ := Multiset.mem_map.1 hd
    have hmem : e ∈ (arrivals : Multiset Event) := hrest ▸ Multiset.mem_add.2 (.inr he)
    exact hdur e (Multiset.mem_coe.1 hmem)
  rw [hsum]
  exact le_add_of_nonneg_right hpos

/-! ## The visits so far -/

/-- Who has been served. -/
def servedEvents (s : Chamber) : Multiset Event := (s.served.map fun x => x.visitor.event : List Event)

theorem servedEvents_eq (s : Chamber) : s.servedEvents = s.seen.map Visitor.event := by
  rw [servedEvents, seen, Multiset.map_coe, List.map_map]
  rfl

theorem busy_eq (s : Chamber) : s.busy = (s.servedEvents.map Event.duration).sum := by
  rw [busy, servedEvents, Multiset.map_coe, Multiset.sum_coe, List.map_map]
  rfl

theorem handled_eq (s : Chamber) : s.handled = (s.admitted : Multiset Visitor).map Visitor.event +
    (s.turnedAway.map fun r => r.visitor.event : List Event) := by
  rw [handled, Multiset.map_coe]

/-- Who has been served has been handled. -/
theorem served_le_handled (C : Counts s) : s.servedEvents ≤ s.handled := by
  rw [handled_eq, C.admitted, servedEvents_eq, Multiset.map_add]
  exact (Multiset.le_add_right _ _).trans (Multiset.le_add_right _ _)

/-- So has who waits, besides. -/
theorem waiting_served_le_handled (C : Counts s) {k : Kind} {v : Visitor} (hv : v ∈ s.waiting k) :
    v.event ::ₘ s.servedEvents ≤ s.handled := by
  have hmem : v ∈ s.waitingAll := by
    rw [waitingAll, Multiset.mem_add, Multiset.mem_add, Multiset.mem_coe, Multiset.mem_coe, Multiset.mem_coe]
    cases k
    · exact .inl (.inl hv)
    · exact .inl (.inr hv)
    · exact .inr hv
  have hsingle : {v.event} ≤ s.waitingAll.map Visitor.event :=
    Multiset.singleton_le.2 (Multiset.mem_map_of_mem Visitor.event hmem)
  rw [handled_eq, C.admitted, servedEvents_eq, Multiset.map_add, ← Multiset.singleton_add, Multiset.add_comm]
  exact (add_le_add le_rfl hsingle).trans (Multiset.le_add_right _ _)

/-- The visits take no longer than all visits together. -/
theorem busy_le (V : VisitorsInv arrivals n s) (hdur : ∀ e ∈ arrivals, 0 ≤ e.duration) :
    s.busy ≤ (arrivals.map Event.duration).sum := by
  rw [busy_eq]
  refine sum_duration_le ?_ hdur
  rw [← V.balance]
  exact (served_le_handled V.counts).trans (Multiset.le_add_left _ _)

/-- With another one to come. -/
theorem busy_add_le (hdur : ∀ e ∈ arrivals, 0 ≤ e.duration) (h : e ::ₘ s.servedEvents ≤ (arrivals : Multiset Event)) :
    s.busy + e.duration ≤ (arrivals.map Event.duration).sum := by
  have hsum := sum_duration_le h hdur
  rw [Multiset.map_cons, Multiset.sum_cons, ← busy_eq] at hsum
  omega

/-! ## The clock -/

/-- **The clock** passes `T` by no more than the visits take, unless it moves on to an arrival later than `T`. -/
theorem clock_le_step (I : SchedInv s) (F : s.Fits) (hclock : s.currentTime ≤ T + s.busy)
    (hskip : ∀ next, s.pc = .others next → s.currentTime < next.time → s.turn = none → next.time ≤ T)
    (h : s.step i = some s') : s'.currentTime ≤ T + s'.busy := by
  have hclose : ∀ next, (s.closeSession next).busy = s.busy := fun next => busy_congr (closeSession_served s next)
  have hbusy := busy_nonneg I
  have hvisit : ∀ {k : Kind} {v : Visitor}, (s.waiting k)[i]? = some v →
      (s.visit k i v).currentTime ≤ T + (s.visit k i v).busy := by
    intro k v hv
    rw [I.visit_currentTime hv ((F k).1 v (List.mem_of_getElem? hv)), busy_visit]
    omega
  cases moved_of_step h with
  | drained | returned => exact hclock
  | doctorEvent next | ahead next | refused next | admitted next =>
    show (s.closeSession next).currentTime ≤ T + (s.closeSession next).busy
    rw [closeSession_currentTime, hclose]
    exact hclock
  | visited next k l v ha hkind hreason hnow hfree hturn hv =>
    obtain ⟨hend, hdur⟩ := served_currentTime I F ha hkind hreason hv
    have hbusy' : ((((s.closeSession next).admitVisitor next k).visit l i v).finish next).busy =
        s.busy + v.event.duration := by
      rw [← hclose next]
      exact busy_visit (i := i) ((s.closeSession next).admitVisitor next k) l v
    have harr := ha.time
    rw [hbusy', finish]
    dsimp only
    split_ifs <;> omega
  | other next s' ha hkind => exact absurd hkind (I.types next ha.mem_left)
  | others next k v hpc hlt hturn hv => exact hvisit hv
  | resume next hpc hnobody =>
    show (if s.currentTime < next.time then next.time else s.currentTime) ≤ T + (s.closeSession next).busy
    rw [hclose]
    split_ifs with hlt
    · have hle := hskip next hpc hlt (hnobody hlt)
      omega
    · exact hclock
  | pending k v hpc hturn hv => exact hvisit hv

/-! ## Days on which the clock does not wrap -/

/-- All have come by `T`, and all visits after one another end by `INT_MAX` then. -/
structure Ample (arrivals : List Event) (T : Int) : Prop where
  nonneg : 0 ≤ T
  times : ∀ e ∈ arrivals, e.time ≤ T
  visits : T + (arrivals.map Event.duration).sum ≤ intMax

theorem mem_arrivals_of_left (V : VisitorsInv arrivals n s) (he : e ∈ s.left) : e ∈ arrivals := by
  rw [← Multiset.mem_coe, ← V.balance]
  exact Multiset.mem_add.2 (.inl he)

namespace Ample

theorem fits (A : Ample arrivals T) (hdur : ∀ e ∈ arrivals, 0 ≤ e.duration) (V : VisitorsInv arrivals n s)
    (hclock : s.currentTime ≤ T + s.busy) : s.Fits := by
  have hroom : ∀ {e : Event}, e ::ₘ s.servedEvents ≤ (arrivals : Multiset Event) →
      s.currentTime + e.duration ≤ intMax := by
    intro e he
    have hbusy := busy_add_le hdur he
    have hvisits := A.visits
    omega
  refine fun k => ⟨fun v hv => hroom ?_, fun ⟨hpc, hpos, _, hkind, _⟩ => hroom ?_⟩
  · rw [← V.balance]
    exact (waiting_served_le_handled V.counts hv).trans (Multiset.le_add_left _ _)
  · have htype : s.E.nextevent.type ≠ 'D' := by
      intro hdoctor
      rw [hdoctor] at hkind
      cases hkind
    rw [← V.balance, ← Multiset.singleton_add]
    refine add_le_add ?_ (served_le_handled V.counts)
    exact Multiset.singleton_le.2 (mem_left.2 ⟨EventQ.nextevent_mem hpos, htype⟩)

theorem step (A : Ample arrivals T) (hdur : ∀ e ∈ arrivals, 0 ≤ e.duration) (V : VisitorsInv arrivals n s)
    (hclock : s.currentTime ≤ T + s.busy) (h : s.step i = some s') :
    VisitorsInv arrivals (n + 1) s' ∧ s'.currentTime ≤ T + s'.busy := by
  have F := A.fits hdur V hclock
  refine ⟨V.step F h, clock_le_step V.sched F hclock (fun next hpc _ _ => ?_) h⟩
  have hstage := V.sched.stage
  rw [Stage, hpc] at hstage
  exact A.times next (mem_arrivals_of_left V hstage.1)

theorem init (A : Ample arrivals T) (htypes : ∀ e ∈ arrivals, kindOf e.type ≠ none)
    (hdur : ∀ e ∈ arrivals, 0 ≤ e.duration) : VisitorsInv arrivals 0 (Chamber.init arrivals) ∧
      (Chamber.init arrivals).currentTime ≤ T + (Chamber.init arrivals).busy :=
  ⟨.init htypes hdur, A.nonneg.trans (Int.add_zero T).ge⟩

theorem run (A : Ample arrivals T) (htypes : ∀ e ∈ arrivals, kindOf e.type ≠ none)
    (hdur : ∀ e ∈ arrivals, 0 ≤ e.duration) {as : List Nat} {s : Chamber}
    (h : Trans.run Chamber.step (Chamber.init arrivals) as = some s) :
    VisitorsInv arrivals as.length s ∧ s.currentTime ≤ T + s.busy := by
  refine Trans.run_inv (I := fun as t => VisitorsInv arrivals as.length t ∧ t.currentTime ≤ T + t.busy)
    (A.init htypes hdur) ?_ h
  rintro as t a t' ⟨V, hclock⟩ ht
  rw [List.length_append]
  exact A.step hdur V hclock ht

/-- **Nothing overflows**, in any run. -/
theorem along (A : Ample arrivals T) (htypes : ∀ e ∈ arrivals, kindOf e.type ≠ none)
    (hdur : ∀ e ∈ arrivals, 0 ≤ e.duration) (as : List Nat) : Trans.Along Chamber.step Fits (Chamber.init arrivals) as :=
  Trans.along_of_forall (fun _ _ ht => A.fits hdur (A.run htypes hdur ht).1 (A.run htypes hdur ht).2) as

/-- Every run can go on to its end. -/
theorem exists_end_from (A : Ample arrivals T) (hdur : ∀ e ∈ arrivals, 0 ≤ e.duration) (V : VisitorsInv arrivals n s)
    (hclock : s.currentTime ≤ T + s.busy) : ∃ as t, Trans.run Chamber.step s as = some t ∧ t.pc = .returned := by
  induction hm : s.measure using Nat.strong_induction_on generalizing s n with
  | h m ih =>
    by_cases hpc : s.pc = .returned
    · exact ⟨[], s, rfl, hpc⟩
    · obtain ⟨s', hs⟩ := exists_step hpc
      obtain ⟨V', hclock'⟩ := A.step hdur V hclock hs
      have hlt := measure_lt V.sched (A.fits hdur V hclock) hs
      obtain ⟨as, t, ht, hend⟩ := ih s'.measure (hm ▸ hlt) V' hclock' rfl
      exact ⟨0 :: as, t, Option.bind_eq_some_iff.2 ⟨s', hs, ht⟩, hend⟩

theorem exists_end (A : Ample arrivals T) (htypes : ∀ e ∈ arrivals, kindOf e.type ≠ none)
    (hdur : ∀ e ∈ arrivals, 0 ≤ e.duration) :
    ∃ as s, Trans.run Chamber.step (Chamber.init arrivals) as = some s ∧ s.pc = .returned :=
  A.exists_end_from hdur (A.init htypes hdur).1 (A.init htypes hdur).2

end Ample

end Chamber

end OsLab.A6
