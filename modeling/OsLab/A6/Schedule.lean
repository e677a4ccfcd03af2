import OsLab.A6.Session
import OsLab.Lib.Schedule

/-!
# The doctor's schedule (A6/session.c)

`doctors_schedule_legal`: the visitors are served as by `Schedule.Legal`, which is a schedule on one server with
the class of a visitor as its rank. The clock of main is the time of the next visit: it moves on to the next
arrival only when nobody waits (`SchedInv.clock`), and a visitor is admitted only when the clock has reached the
arrival, so those still in the queue come later than whoever is served (`SchedInv.visit`).
-/

namespace OsLab.A6

open Function (update)
open Schedule (Slot Legal freeAt)

def Kind.rank : Kind → Nat
  | .reporter => 0
  | .patient => 1
  | .salesrep => 2

theorem classOf_of_kind {c : Char} {k : Kind} (h : kindOf c = some k) : classOf c = k.rank := by
  unfold kindOf at h
  unfold classOf
  split_ifs at h ⊢ <;> cases h <;> rfl

namespace Chamber

variable {s s' : Chamber} {i : Nat} {k l : Kind} {v : Visitor} {next e : Event}

/-- The arrivals still in the queue. -/
def left (s : Chamber) : Multiset Event := s.E.events.filter (·.type ≠ 'D')

/-- Those in the queue and those that wait. -/
def Unserved (s : Chamber) : Set Event := {e | e ∈ s.left ∨ ∃ k, ∃ v ∈ s.waiting k, v.event = e}

/-- The visits as jobs of the doctor. -/
def slots (s : Chamber) : List (Slot Event) := s.served.map fun x => ⟨x.visitor.event, x.start⟩

theorem mem_left : e ∈ s.left ↔ e ∈ s.E.events ∧ e.type ≠ 'D' := by
  rw [left, Multiset.mem_filter]

theorem initEQ_events (arrivals : List Event) : (initEQ arrivals).events = arrivals := by
  rw [initEQ, EventQ.heapify_events]
  have hlist : (List.range arrivals.length).map (fun i => arrivals.getD i ⟨'E', 0, 0⟩) = arrivals := by
    refine List.ext_getElem (by simp) fun n hn hn' => ?_
    simp [hn']
  show ((List.range arrivals.length : List Nat) : Multiset Nat).map (fun i => arrivals.getD i ⟨'E', 0, 0⟩) = arrivals
  rw [Multiset.map_coe, hlist]

theorem left_congr (hE : s'.E = s.E) : s'.left = s.left := by rw [left, hE, left]

theorem unserved_congr (hE : s'.E = s.E) (hwaiting : s'.waiting = s.waiting) : s'.Unserved = s.Unserved := by
  rw [Unserved, left_congr hE, hwaiting, Unserved]

theorem slots_congr (hserved : s'.served = s.served) : s'.slots = s.slots := by rw [slots, hserved, slots]

theorem Arrives.mem_left (h : s.Arrives next) : next ∈ s.left :=
  Chamber.mem_left.2 ⟨h.head ▸ EventQ.nextevent_mem h.pos, h.type⟩

/-- A class whose turn it is comes before every class that waits. -/
theorem turn_rank_le (hturn : s.turn = some k) (hl : s.waiting l ≠ []) : k.rank ≤ l.rank := by
  obtain ⟨_, hr, hp⟩ := turn_eq_some hturn
  cases k <;> cases l <;> simp_all [Kind.rank]

theorem left_visit (s : Chamber) (k : Kind) (i : Nat) (v : Visitor) : (s.visit k i v).left = s.left := by
  rw [left, visit, EventQ.enqueue_events, Multiset.filter_cons_of_neg _ (by simp), left]

theorem mem_of_mem_waiting_visit {w : Visitor} (h : w ∈ (s.visit k i v).waiting l) : w ∈ s.waiting l := by
  by_cases hl : l = k
  · subst hl
    simp only [Chamber.visit, Function.update_self] at h
    exact List.mem_of_mem_eraseIdx h
  · simpa [Chamber.visit, hl] using h

/-! ## The invariant -/

/-- What `main` knows where it is. -/
def Stage (s : Chamber) : Prop :=
  match s.pc with
  | .top => s.docArrived ≠ .awaited
  | .others next => next ∈ s.left ∧ ∀ e ∈ s.left, next.time ≤ e.time
  | .pending => s.left = 0
  | .returned => s.left = 0

structure SchedInv (s : Chamber) : Prop where
  ordered : s.E.Ordered
  types : ∀ e ∈ s.left, kindOf e.type ≠ none
  kinds : ∀ k, ∀ v ∈ s.waiting k, kindOf v.event.type = some k
  arrived : ∀ k, ∀ v ∈ s.waiting k, v.event.time ≤ s.currentTime
  durations : (∀ e ∈ s.Unserved, 0 ≤ e.duration) ∧ ∀ x ∈ s.served, 0 ≤ x.visitor.event.duration
  clock : 0 ≤ s.currentTime ∧ freeAt Event.duration 0 s.slots ≤ s.currentTime
  idle : freeAt Event.duration 0 s.slots < s.currentTime → ∀ e ∈ s.Unserved, s.currentTime ≤ e.time
  legal : Legal Event.time Event.duration (fun e => classOf e.type) 0 s.slots s.Unserved
  stage : s.Stage

namespace SchedInv

/-- Only the queue, the clock, those that wait and the visits matter, and `main`'s position. -/
theorem congr (I : SchedInv s) (hE : s'.E = s.E) (htime : s'.currentTime = s.currentTime)
    (hwaiting : s'.waiting = s.waiting) (hserved : s'.served = s.served) (hstage : s'.Stage) : SchedInv s' := by
  have hleft := left_congr hE
  have hunserved := unserved_congr hE hwaiting
  have hslots := slots_congr hserved
  exact ⟨hE ▸ I.ordered, hleft ▸ I.types, hwaiting ▸ I.kinds, by rw [hwaiting, htime]; exact I.arrived,
    by rw [hunserved, hserved]; exact I.durations, by rw [htime, hslots]; exact I.clock,
    by rw [htime, hslots, hunserved]; exact I.idle, by rw [hslots, hunserved]; exact I.legal, hstage⟩

/-- An event leaves the queue. -/
theorem delevent (I : SchedInv s) (hE : s'.E = s.E.delevent) (htime : s'.currentTime = s.currentTime)
    (hwaiting : s'.waiting = s.waiting) (hserved : s'.served = s.served) (hpc' : s'.pc = .top)
    (hd : s'.docArrived ≠ .awaited) : SchedInv s' := by
  have hsub : ∀ e ∈ s'.left, e ∈ s.left := by
    intro e he
    rw [Chamber.mem_left, hE] at he
    refine Chamber.mem_left.2 ⟨?_, he.2⟩
    rcases Nat.eq_zero_or_pos s.E.n with h0 | hpos
    · rw [← EventQ.delevent_empty h0]
      exact he.1
    · rw [EventQ.delevent_events hpos]
      exact Multiset.mem_cons_of_mem he.1
  have hunserved : s'.Unserved ⊆ s.Unserved := by
    rintro e (he | he)
    · exact .inl (hsub e he)
    · exact .inr (hwaiting ▸ he)
  have hslots := slots_congr hserved
  exact ⟨hE ▸ EventQ.delevent_ordered I.ordered, fun e he => I.types e (hsub e he), hwaiting ▸ I.kinds,
    by rw [hwaiting, htime]; exact I.arrived,
    ⟨fun e he => I.durations.1 e (hunserved he), hserved ▸ I.durations.2⟩, by rw [htime, hslots]; exact I.clock,
    by rw [htime, hslots]; exact fun h e he => I.idle h e (hunserved he), hslots ▸ I.legal.mono hunserved,
    by rw [Stage, hpc']; exact hd⟩

theorem closeSession (I : SchedInv s) (next : Event) : SchedInv (s.closeSession next) := by
  refine I.congr (by simp) (by simp) (by simp) (by simp) ?_
  have hstage := I.stage
  have hleft := left_congr (closeSession_E s next)
  rw [Stage] at hstage ⊢
  rw [closeSession_pc, closeSession_docArrived, hleft]
  exact hstage

/-- The clock moves on to the next arrival. -/
theorem skip (I : SchedInv s) {t : Int} (ht : s.currentTime ≤ t) (hnobody : ∀ k, s.waiting k = [])
    (hnext : ∀ e ∈ s.left, t ≤ e.time) (hE : s'.E = s.E) (htime : s'.currentTime = t)
    (hwaiting : s'.waiting = s.waiting) (hserved : s'.served = s.served) (hstage : s'.Stage) : SchedInv s' := by
  have hleft := left_congr hE
  have hunserved := unserved_congr hE hwaiting
  have hslots := slots_congr hserved
  refine ⟨hE ▸ I.ordered, hleft ▸ I.types, hwaiting ▸ I.kinds, fun k v hv => ?_,
    by rw [hunserved, hserved]; exact I.durations, ?_, fun _ e he => ?_,
    by rw [hslots, hunserved]; exact I.legal, hstage⟩
  · rw [hwaiting, hnobody] at hv
    exact absurd hv List.not_mem_nil
  · rw [htime, hslots]
    exact ⟨I.clock.1.trans ht, I.clock.2.trans ht⟩
  · rw [htime]
    rcases he with he | ⟨k, v, hv, rfl⟩
    · exact hnext e (hleft ▸ he)
    · rw [hwaiting, hnobody] at hv
      exact absurd hv List.not_mem_nil

/-- A visitor who has arrived is admitted: now it waits, and is still in the queue. -/
theorem admitVisitor (I : SchedInv s) (hpc : s.pc = .top) (hnext : next ∈ s.left) (htime : next.time ≤ s.currentTime)
    (hk : kindOf next.type = some k) : SchedInv (s.admitVisitor next k) := by
  have hmem : ∀ l, ∀ v ∈ (s.admitVisitor next k).waiting l, v ∈ s.waiting l ∨ l = k ∧ v.event = next := by
    intro l v hv
    by_cases hl : l = k
    · subst hl
      simp only [Chamber.admitVisitor, Function.update_self] at hv
      rcases List.mem_append.1 hv with hv | hv
      · exact .inl hv
      · exact .inr ⟨rfl, by rw [List.mem_singleton.1 hv]⟩
    · simp only [Chamber.admitVisitor, Function.update_of_ne hl] at hv
      exact .inl hv
  have hunserved : (s.admitVisitor next k).Unserved ⊆ s.Unserved := by
    rintro e (he | ⟨l, v, hv, rfl⟩)
    · exact .inl he
    · rcases hmem l v hv with hv | ⟨-, hv⟩
      · exact .inr ⟨l, v, hv, rfl⟩
      · exact .inl (hv ▸ hnext)
  refine ⟨I.ordered, I.types, fun l v hv => ?_, fun l v hv => ?_,
    ⟨fun e he => I.durations.1 e (hunserved he), I.durations.2⟩, I.clock, fun h e he => I.idle h e (hunserved he),
    I.legal.mono hunserved, ?_⟩
  · rcases hmem l v hv with hold | ⟨rfl, hnew⟩
    · exact I.kinds l v hold
    · exact hnew ▸ hk
  · rcases hmem l v hv with hold | ⟨-, hnew⟩
    · exact I.arrived l v hold
    · exact hnew ▸ htime
  · have hstage := I.stage
    rw [Stage, hpc] at hstage
    rw [Stage, Chamber.admitVisitor, hpc]
    exact hstage

theorem arrive (I : SchedInv s) (ha : s.Arrives next) (hk : kindOf next.type = some k) :
    SchedInv ((s.closeSession next).admitVisitor next k) :=
  (I.closeSession next).admitVisitor (by simpa using ha.pc) (by simpa [left] using ha.mem_left)
    (by simpa using ha.time) hk

/-- Whoever waits has come with a duration that is not negative. -/
theorem duration_nonneg (I : SchedInv s) (hv : v ∈ s.waiting k) : 0 ≤ v.event.duration :=
  I.durations.1 _ (.inr ⟨k, v, hv, rfl⟩)

/-- The clock at the end of a visit that fits. -/
theorem visit_currentTime (I : SchedInv s) (hv : (s.waiting k)[i]? = some v)
    (hfit : s.currentTime + v.event.duration ≤ intMax) :
    (s.visit k i v).currentTime = s.currentTime + v.event.duration :=
  Chamber.visit_currentTime I.clock.1 (I.duration_nonneg (List.mem_of_getElem? hv)) hfit k i

/-- **A visit**, when nobody of a higher class is still in the queue who has arrived. -/
theorem visit (I : SchedInv s) (hturn : s.turn = some k) (hv : (s.waiting k)[i]? = some v)
    (hfit : s.currentTime + v.event.duration ≤ intMax)
    (hahead : ∀ e ∈ s.left, classOf e.type < classOf v.event.type → s.currentTime < e.time) :
    SchedInv (s.visit k i v) := by
  have hmem : v ∈ s.waiting k := List.mem_of_getElem? hv
  have hun : v.event ∈ s.Unserved := .inr ⟨k, v, hmem, rfl⟩
  have hunserved : (s.visit k i v).Unserved ⊆ s.Unserved := by
    rintro e (he | ⟨l, w, hw, rfl⟩)
    · exact .inl (left_visit s k i v ▸ he)
    · exact .inr ⟨l, w, mem_of_mem_waiting_visit hw, rfl⟩
  have hslots : (s.visit k i v).slots = s.slots ++ [⟨v.event, s.currentTime⟩] := by
    simp [slots, Chamber.visit]
  have hdur : 0 ≤ v.event.duration := I.durations.1 _ hun
  have hend := I.visit_currentTime hv hfit
  have hfree : freeAt Event.duration 0 (s.visit k i v).slots = (s.visit k i v).currentTime := by
    rw [hslots, Schedule.freeAt_concat, hend]
    rfl
  refine ⟨EventQ.enqueue_ordered I.ordered _, left_visit s k i v ▸ I.types,
    fun l w hw => I.kinds l w (mem_of_mem_waiting_visit hw), fun l w hw => ?_,
    ⟨fun e he => I.durations.1 e (hunserved he), ?_⟩,
    ⟨?_, hfree.le⟩, fun h => absurd h (by omega), ?_, ?_⟩
  · have harr := I.arrived l w (mem_of_mem_waiting_visit hw)
    omega
  · intro x hx
    rcases List.mem_append.1 hx with hx | hx
    · exact I.durations.2 x hx
    · rw [List.mem_singleton.1 hx]
      exact hdur
  · have hclock := I.clock.1
    omega
  · rw [hslots]
    refine I.legal.serve (fun a ha => ?_) hun hunserved I.clock.1 I.clock.2 (I.arrived k v hmem) ?_ I.idle
    · obtain ⟨x, hx, rfl⟩ := List.mem_map.1 ha
      exact I.durations.2 x hx
    · rintro e (he | ⟨l, w, hw, rfl⟩) hrank
      · exact hahead e (left_visit s k i v ▸ he) hrank
      · -- those that wait have their class's turn later
        have hw' := mem_of_mem_waiting_visit hw
        have hle := turn_rank_le hturn (List.ne_nil_of_mem hw')
        rw [← classOf_of_kind (I.kinds l w hw'), ← classOf_of_kind (I.kinds k v hmem)] at hle
        exact absurd hrank (not_lt.2 hle)
  · have hstage := I.stage
    rw [Stage] at hstage ⊢
    rw [left_visit]
    exact hstage

theorem init {arrivals : List Event} (htypes : ∀ e ∈ arrivals, kindOf e.type ≠ none)
    (hdur : ∀ e ∈ arrivals, 0 ≤ e.duration) : SchedInv (Chamber.init arrivals) := by
  have hleft : ∀ e ∈ (Chamber.init arrivals).left, e ∈ arrivals := by
    intro e he
    rw [Chamber.mem_left, Chamber.init, initEQ_events, Multiset.mem_coe] at he
    exact he.1
  have hunserved : ∀ e ∈ (Chamber.init arrivals).Unserved, e ∈ arrivals := by
    rintro e (he | ⟨k, v, hv, rfl⟩)
    · exact hleft e he
    · exact absurd hv List.not_mem_nil
  exact ⟨EventQ.heapify_ordered _, fun e he => htypes e (hleft e he), fun _ _ hv => absurd hv List.not_mem_nil,
    fun _ _ hv => absurd hv List.not_mem_nil,
    ⟨fun e he => hdur e (hunserved e he), fun _ hx => absurd hx List.not_mem_nil⟩, ⟨le_rfl, le_rfl⟩,
    fun h => absurd h (lt_irrefl 0), .nil _ _ _ _ _, by simp [Stage, Chamber.init]⟩

/-- The next visitor of the queue has the smallest key of those left. -/
theorem head_le (I : SchedInv s) (hpos : 0 < s.E.n) (hhead : s.E.nextevent = next) (he : e ∈ s.left) :
    key next ≤ key e :=
  hhead ▸ EventQ.nextevent_le hpos I.ordered (Chamber.mem_left.1 he).1

/-- Whoever comes while the doctor is free, or somebody who waited of a class not lower, is served at once. -/
theorem arriveServed {l : Kind} (I : SchedInv s) (ha : s.Arrives next) (hkind : kindOf next.type = some k)
    (hfit : s.currentTime + v.event.duration ≤ intMax) (hnow : s.currentTime = next.time) (hfree : s.docArrived = .free)
    (hturn : ((s.closeSession next).admitVisitor next k).turn = some l)
    (hv : (((s.closeSession next).admitVisitor next k).waiting l)[i]? = some v) :
    SchedInv ((((s.closeSession next).admitVisitor next k).visit l i v).finish next) := by
  have I' := I.arrive ha hkind
  have hmem := List.mem_of_getElem? hv
  have hrank : classOf v.event.type ≤ classOf next.type := by
    rw [classOf_of_kind (I'.kinds l v hmem), classOf_of_kind hkind]
    exact turn_rank_le hturn (by simp [Chamber.admitVisitor])
  have hdur := I'.duration_nonneg hmem
  have hfit' : ((s.closeSession next).admitVisitor next k).currentTime + v.event.duration ≤ intMax := by
    simpa [Chamber.admitVisitor] using hfit
  have hend := I'.visit_currentTime hv hfit'
  have I'' := I'.visit hturn hv hfit' fun e he hlt => by
    have hleft : e ∈ s.left := by simpa [left, Chamber.admitVisitor] using he
    show (s.closeSession next).currentTime < e.time
    rw [closeSession_currentTime, hnow]
    rcases (key_le_iff _ _).1 (I.head_le ha.pos ha.head hleft) with htime | hsame
    · exact htime
    · exact absurd hsame.2 (not_le.2 (lt_of_lt_of_le hlt hrank))
  have hlate : ¬ (((s.closeSession next).admitVisitor next k).visit l i v).currentTime < next.time := by
    have hclock : ((s.closeSession next).admitVisitor next k).currentTime = s.currentTime := by
      simp [Chamber.admitVisitor]
    omega
  refine I''.delevent rfl ?_ rfl rfl ?_ ?_
  · rw [Chamber.finish, if_neg hlate]
  · simpa [Chamber.finish, Chamber.visit, Chamber.admitVisitor] using ha.pc
  · simp [Chamber.finish, Chamber.visit, Chamber.admitVisitor, hfree]

theorem step (I : SchedInv s) (F : s.Fits) (h : s.step i = some s') : SchedInv s' := by
  cases moved_of_step h with
  | drained hpc hempty =>
    refine I.congr rfl rfl rfl rfl ?_
    show left _ = 0
    rw [left, EventQ.events, hempty]
    rfl
  | doctorEvent next hpc hpos hhead hdoctor =>
    have hstage := I.stage
    rw [Stage, hpc] at hstage
    exact I.delevent rfl (by simp) (by simp) (by simp) (by simpa using hpc) (by simpa using hstage)
  | ahead next hpc hpos hhead htype hahead =>
    refine I.congr (by simp) (by simp) (by simp) (by simp) ?_
    show next ∈ left _ ∧ ∀ e ∈ left _, next.time ≤ e.time
    rw [left_congr (s := s) (by simp)]
    refine ⟨Chamber.mem_left.2 ⟨hhead ▸ EventQ.nextevent_mem hpos, htype⟩, fun e he => ?_⟩
    rcases (key_le_iff _ _).1 (I.head_le hpos hhead he) with hlt | heq
    · exact hlt.le
    · exact heq.1.le
  | refused next k reason ha hkind hreason =>
    have hstage := I.stage
    rw [Stage, ha.pc] at hstage
    exact I.delevent (by simp [turnAway]) (by simp [turnAway]) (by simp [turnAway]) (by simp [turnAway])
      (by simpa [turnAway] using ha.pc) (by simpa [turnAway] using hstage)
  | admitted next k d n ha hkind hreason hd =>
    have I' := I.arrive ha hkind
    exact I'.delevent (by simp [Chamber.admitVisitor]) rfl rfl rfl
      (by simpa [Chamber.admitVisitor] using ha.pc) hd
  | visited next k l v ha hkind hreason hnow hfree hturn hv =>
    exact I.arriveServed ha hkind (F.admitted ha hkind hreason (List.mem_of_getElem? hv)) hnow hfree hturn hv
  | other next s' ha hkind => exact absurd hkind (I.types next ha.mem_left)
  | others next k v hpc hlt hturn hv =>
    have hstage := I.stage
    rw [Stage, hpc] at hstage
    exact I.visit hturn hv ((F k).1 v (List.mem_of_getElem? hv)) fun e he _ => lt_of_lt_of_le hlt (hstage.2 e he)
  | resume next hpc hnobody =>
    by_cases hlt : s.currentTime < next.time
    · -- nobody waits: the clock moves on
      have hwaiting := turn_eq_none.1 (hnobody hlt)
      have hstage := I.stage
      rw [Stage, hpc] at hstage
      rw [if_pos hlt]
      exact I.skip hlt.le hwaiting hstage.2 (by simp) rfl (by simp) (by simp) (by simp [Stage])
    · rw [if_neg hlt]
      exact I.congr (by simp) rfl (by simp) (by simp) (by simp [Stage])
  | pending k v hpc hturn hv =>
    have hstage := I.stage
    rw [Stage, hpc] at hstage
    refine I.visit hturn hv ((F k).1 v (List.mem_of_getElem? hv)) fun e he => ?_
    rw [hstage] at he
    exact absurd he (Multiset.notMem_zero e)
  | returned hpc hturn =>
    have hstage := I.stage
    rw [Stage, hpc] at hstage
    exact I.congr rfl rfl rfl rfl hstage

end SchedInv

/-- **The doctor's schedule is legal** while all visits fit: nobody is seen before arriving or before time 0, the visits
do not overlap, at the start of a visit nobody of a higher class who has arrived waits, and the doctor is idle only while
nobody who has arrived waits. -/
theorem doctors_schedule_legal (arrivals : List Event) (htypes : ∀ e ∈ arrivals, kindOf e.type ≠ none)
    (hdur : ∀ e ∈ arrivals, 0 ≤ e.duration) (s : Chamber)
    (h : Trans.ReachIf Chamber.step (fun s _ => s.Fits) (Chamber.init arrivals) s) :
    Legal Event.time Event.duration (fun e => classOf e.type) 0 s.slots {e | ∃ k, ∃ v ∈ s.waiting k, v.event = e} := by
  have I : SchedInv s := h.inv (.init htypes hdur) fun _ _ _ _ I F hs => I.step F hs
  exact I.legal.mono fun e he => .inr he

/-- Two patients and a reporter; the second patient and the reporter arrive during the first visit. -/
theorem doctors_schedule_legal_three : ∃ s : Chamber,
    Trans.ReachIf Chamber.step (fun s _ => s.Fits) (Chamber.init [⟨'P', -5, 10⟩, ⟨'P', 3, 7⟩, ⟨'R', 4, 6⟩]) s ∧
      s.pc = .returned ∧
      s.slots = [⟨⟨'P', -5, 10⟩, 0⟩, ⟨⟨'R', 4, 6⟩, 10⟩, ⟨⟨'P', 3, 7⟩, 16⟩] ∧
      Legal Event.time Event.duration (fun e => classOf e.type) 0 s.slots
        {e | ∃ k, ∃ v ∈ s.waiting k, v.event = e} := by
  obtain ⟨s, hr, hs⟩ := Trans.exists_reachIf_of_run Chamber.step (fun s _ => s.Fits)
    (Chamber.init [⟨'P', -5, 10⟩, ⟨'P', 3, 7⟩, ⟨'R', 4, 6⟩]) (List.replicate 11 0)
    (fun s => decide (s.pc = .returned ∧
      s.slots = [⟨⟨'P', -5, 10⟩, 0⟩, ⟨⟨'R', 4, 6⟩, 10⟩, ⟨⟨'P', 3, 7⟩, 16⟩])) (by decide +kernel)
  obtain ⟨hpc, hslots⟩ := of_decide_eq_true hs
  exact ⟨s, hr, hpc, hslots, doctors_schedule_legal _ (by decide) (by decide) s hr⟩

/-- A reporter who comes at `INT_MAX`. The clock wraps in the visit, so that the end of the visit is before the reporter
in the queue and is taken out in its place. -/
def lastMinute : List Event := [⟨'R', 2147483647, 1⟩]

/-- The reporter is seen again before its visit has ended. -/
theorem schedule_overlaps : ¬ ∀ (arrivals : List Event), (∀ e ∈ arrivals, kindOf e.type ≠ none) →
    (∀ e ∈ arrivals, 0 ≤ e.duration) → ∀ s : Chamber, Trans.Reach Chamber.step (Chamber.init arrivals) s →
    Legal Event.time Event.duration (fun e => classOf e.type) 0 s.slots
      {e | ∃ k, ∃ v ∈ s.waiting k, v.event = e} := by
  intro h
  obtain ⟨s, hr, hs⟩ := Trans.exists_reach_of_run Chamber.step (Chamber.init lastMinute) (List.replicate 4 0)
    (fun s => decide (s.slots = [⟨⟨'R', 2147483647, 1⟩, 2147483647⟩, ⟨⟨'R', 2147483647, 1⟩, 2147483647⟩]))
    (by decide +kernel)
  have hdisjoint := (h lastMinute (by decide) (by decide) s hr).disjoint
  rw [of_decide_eq_true hs] at hdisjoint
  have hstop := List.rel_of_pairwise_cons hdisjoint (List.mem_singleton_self _)
  exact absurd hstop (by decide)

end Chamber

end OsLab.A6
