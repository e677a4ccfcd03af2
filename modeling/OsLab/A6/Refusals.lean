import OsLab.A6.Joins

/-!
# Who is told that the session is over (A6/session.c)

Patients and sales reps hear "session over" when they come later than `done_time` (:354, :392), and "quota full" before.
Reporters hear it whenever the flag has been set (:320). A reporter who comes while the last patient or sales rep of
the quotas is in the chamber is looked at behind that visit, and then the flag has been set: it is turned away although
the doctor was there when it came. `session_over_iff` says that this is the only case.
-/

namespace OsLab.A6

open Schedule (freeAt)

namespace Chamber

variable {s s' t : Chamber} {i : Nat} {k : Kind} {v : Visitor} {next e : Event} {reason : Reason} {arrivals : List Event}

/-- When the last visit ended. -/
def lastEnd (s : Chamber) : Int := freeAt Event.duration 0 s.slots

/-- Who was told that the session is over came later than `done_time`. -/
def SessionOver (s : Chamber) : Prop := ∀ r ∈ s.turnedAway, r.reason = .sessionOver → s.doneTime < r.visitor.event.time

/-- When the quotas have been served no reporter is left who came before the end of the last visit. -/
def Punctual (s : Chamber) : Prop := s.Full → ∀ e ∈ s.left, kindOf e.type = some .reporter → s.lastEnd < e.time

theorem lastEnd_congr (hserved : s'.served = s.served) : s'.lastEnd = s.lastEnd := by
  rw [lastEnd, slots_congr hserved, lastEnd]

theorem lastEnd_visit (hend : (s.visit k i v).currentTime = s.currentTime + v.event.duration) :
    (s.visit k i v).lastEnd = (s.visit k i v).currentTime := by
  have hslots : (s.visit k i v).slots = s.slots ++ [⟨v.event, s.currentTime⟩] := by simp [slots, visit]
  rw [lastEnd, hslots, Schedule.freeAt_concat, hend]
  rfl

/-! ## `done_time` -/

structure DoneInv (s : Chamber) : Prop where
  clock : s.Full → s.joins = 0 → s.currentTime = s.lastEnd
  fresh : s.docSessionDone = false → s.joins = 0 ∧ s.doneTime = 0
  done : s.docSessionDone = true → s.Full → s.doneTime = s.lastEnd
  told : ∀ r ∈ s.turnedAway, r.reason = .sessionOver → s.docSessionDone = true ∧ s.Full

/-- Behind the checks the doctor has been joined if `next` is late. -/
theorem closeSession_joins_pos (hdone : (s.closeSession next).docSessionDone = true)
    (hlt : (s.closeSession next).doneTime < next.time) : 0 < (s.closeSession next).joins := by
  unfold closeSession joinDoctor at *
  split_ifs at * with hover
  · exact Nat.succ_pos _
  · exact absurd ⟨hdone, hlt⟩ hover

/-- The counters pass their bounds only with the flag. -/
theorem done_of_isOver (C : Counts s) (hpc : s.pc ≠ .returned) (h : s.isOver) : s.docSessionDone = true := by
  by_contra hdone
  rw [Bool.not_eq_true] at hdone
  have hserved := (C.served hpc).1
  have hle : countKind .patient s.seen ≤ countKind .patient s.admitted := by
    rw [C.admitted, countKind_add]
    exact Nat.le_add_right _ _
  have hquota := C.patients
  have hover := h.1
  rw [hdone, Bool.toNat_false] at hserved
  omega

theorem refusal_sessionOver (h : s.refusal next k = some .sessionOver) :
    s.isOver ∧ (k ≠ .reporter → s.doneTime < next.time) := by
  cases k with
  | reporter =>
    rw [refusal, Option.ite_none_right_eq_some] at h
    exact ⟨h.1, fun hk => absurd rfl hk⟩
  | patient | salesrep =>
    rw [refusal, Option.ite_none_right_eq_some] at h
    have hreason := Option.some.inj h.2
    split_ifs at hreason with hlate
    exact ⟨hlate.1, fun _ => hlate.2⟩

/-- A reporter hears nothing else. -/
theorem refusal_reporter (h : s.refusal next .reporter = some reason) : reason = .sessionOver := by
  rw [refusal, Option.ite_none_right_eq_some] at h
  exact (Option.some.inj h.2).symm

namespace DoneInv

theorem init (arrivals : List Event) : DoneInv (Chamber.init arrivals) :=
  ⟨fun _ _ => rfl, fun _ => ⟨rfl, rfl⟩, nofun, fun _ hr => absurd hr List.not_mem_nil⟩

/-- Only the visits, those turned away and the variables about the doctor matter, and the clock until the doctor is joined. -/
theorem congr (D : DoneInv s) (hserved : s'.served = s.served) (hturned : s'.turnedAway = s.turnedAway)
    (hdone : s'.docSessionDone = s.docSessionDone) (htime : s'.doneTime = s.doneTime) (hjoins : s'.joins = s.joins)
    (hclock : s.Full → s.joins = 0 → s'.currentTime = s.currentTime) : DoneInv s' := by
  have hfull := full_congr hserved
  have hend := lastEnd_congr hserved
  refine ⟨fun h h0 => ?_, fun h => ?_, fun h h' => ?_, fun r hr hreason => ?_⟩
  · rw [hend, hclock (hfull.1 h) (hjoins ▸ h0)]
    exact D.clock (hfull.1 h) (hjoins ▸ h0)
  · rw [hjoins, htime]
    exact D.fresh (hdone ▸ h)
  · rw [htime, hend]
    exact D.done (hdone ▸ h) (hfull.1 h')
  · rw [hdone, hfull]
    exact D.told r (hturned ▸ hr) hreason

theorem checkSession (D : DoneInv s) : DoneInv s.checkSession := by
  unfold Chamber.checkSession
  split_ifs with hnow
  · exact ⟨D.clock, nofun, fun _ hfull => D.clock hfull (D.fresh hnow.1).1,
      fun r hr hreason => ⟨rfl, (D.told r hr hreason).2⟩⟩
  · exact D

/-- The doctor that leaves finds `done_time` set, or sets it to the same time. -/
theorem leave (D : DoneInv s) (hdone : s.docSessionDone = true) (hfull : s.Full) : s.leave = s.lastEnd := by
  unfold Chamber.leave
  split_ifs with hfirst
  · exact D.clock hfull hfirst.1
  · exact D.done hdone hfull

theorem closeSession (D : DoneInv s) (next : Event) : DoneInv (s.closeSession next) := by
  have D' := D.checkSession
  unfold Chamber.closeSession joinDoctor
  split_ifs with hover
  · exact ⟨fun _ h => absurd h (Nat.succ_ne_zero _), fun h => absurd (hover.1.symm.trans h) (by simp),
      fun _ hfull => D'.leave hover.1 hfull, D'.told⟩
  · exact D'

theorem visit (D : DoneInv s) (C : Counts s) (hpc : s.pc ≠ .returned) (hv : (s.waiting k)[i]? = some v)
    (hend : (s.visit k i v).currentTime = s.currentTime + v.event.duration) : DoneInv (s.visit k i v) := by
  have hnot := not_full_of_waiting C hv
  exact ⟨fun _ _ => (lastEnd_visit hend).symm, D.fresh, fun hdone => absurd (C.done hpc hdone) hnot,
    fun r hr hreason => absurd (D.told r hr hreason).2 hnot⟩

theorem step (D : DoneInv s) (I : SchedInv s) (F : s.Fits) (C : Counts s) (h : s.step i = some s') : DoneInv s' := by
  have hend : ∀ {k : Kind} {v : Visitor}, (s.waiting k)[i]? = some v →
      (s.visit k i v).currentTime = s.currentTime + v.event.duration :=
    fun {k v} hv => I.visit_currentTime hv ((F k).1 v (List.mem_of_getElem? hv))
  cases moved_of_step h with
  | drained => exact D.congr rfl rfl rfl rfl rfl fun _ _ => rfl
  | doctorEvent next | ahead next => exact (D.closeSession next).congr rfl rfl rfl rfl rfl fun _ _ => rfl
  | refused next k reason ha hkind hreason =>
    have hpc : (s.closeSession next).pc ≠ .returned := by simp [ha.pc]
    have C' := (C.closeSession (by simp [ha.pc]) next).1
    have D' := D.closeSession next
    refine ⟨D'.clock, D'.fresh, D'.done, fun r hr hover => ?_⟩
    rcases List.mem_append.1 hr with hr | hr
    · exact D'.told r hr hover
    · obtain rfl := List.mem_singleton.1 hr
      have hdone := done_of_isOver C' hpc (refusal_sessionOver (hreason.trans (congrArg some hover))).1
      exact ⟨hdone, C'.done hpc hdone⟩
  | admitted next k d n ha hkind hreason => exact (D.closeSession next).congr rfl rfl rfl rfl rfl fun _ _ => rfl
  | visited next k l v ha hkind hreason hnow hfree hturn hv =>
    have hpc : s.pc ≠ .returned := by simp [ha.pc]
    obtain ⟨C', hdone⟩ := C.closeSession hpc next
    have hadmit := C'.admitVisitor (C'.not_full (by simpa using hpc) hdone hreason) hkind hreason
    have D' : DoneInv ((s.closeSession next).admitVisitor next k) :=
      (D.closeSession next).congr rfl rfl rfl rfl rfl fun _ _ => rfl
    obtain ⟨hend, hdur⟩ := served_currentTime I F ha hkind hreason hv
    have hclock : ((s.closeSession next).admitVisitor next k).currentTime = s.currentTime := by simp [admitVisitor]
    have hvisit := D'.visit hadmit (by simpa [admitVisitor] using hpc) hv (by rw [hend, hclock])
    refine hvisit.congr rfl rfl rfl rfl rfl fun _ _ => if_neg ?_
    have harrived := ha.time
    omega
  | other next s' ha hkind => exact absurd hkind (I.types next ha.mem_left)
  | others next k v hpc hlt hturn hv => exact D.visit C (by simp [hpc]) hv (hend hv)
  | resume next hpc hnobody =>
    have D' := D.closeSession next
    refine D'.congr rfl rfl rfl rfl rfl fun hfull h0 => ?_
    dsimp only
    rw [closeSession_currentTime]
    -- the clock does not move on before the doctor has been joined
    refine if_neg fun hlt => ?_
    have hdone := (C.closeSession (by simp [hpc]) next).2 hfull
    have hclock := D'.clock hfull h0
    rw [closeSession_currentTime] at hclock
    have hpos := closeSession_joins_pos hdone (by rw [D'.done hdone hfull, ← hclock]; exact hlt)
    omega
  | pending k v hpc hturn hv => exact D.visit C (by simp [hpc]) hv (hend hv)
  | returned hpc hturn =>
    refine ⟨D.clock, fun h => (by cases h), fun _ hfull => ?_, fun r hr hover => ⟨rfl, (D.told r hr hover).2⟩⟩
    show s.leave = s.lastEnd
    by_cases hdone : s.docSessionDone = true
    · exact D.leave hdone hfull
    · have hfresh := D.fresh (Bool.not_eq_true _ ▸ hdone)
      rw [Chamber.leave, if_pos hfresh]
      exact D.clock hfull hfresh.1

end DoneInv

/-! ## Who was told so -/

/-- `SessionOver` with the end of the last visit for `done_time`. -/
def Justified (s : Chamber) : Prop := ∀ r ∈ s.turnedAway, r.reason = .sessionOver → s.lastEnd < r.visitor.event.time

theorem DoneInv.sessionOver_iff (D : DoneInv s) : s.SessionOver ↔ s.Justified := by
  have htime : ∀ r ∈ s.turnedAway, r.reason = .sessionOver → s.doneTime = s.lastEnd := fun r hr hover =>
    D.done (D.told r hr hover).1 (D.told r hr hover).2
  constructor
  · intro h r hr hover
    rw [← htime r hr hover]
    exact h r hr hover
  · intro h r hr hover
    rw [htime r hr hover]
    exact h r hr hover

theorem Justified.step (J : s.Justified) (P : s.Punctual) (D : DoneInv s) (I : SchedInv s) (C : Counts s)
    (h : s.step i = some s') : s'.Justified := by
  have hkeep : ∀ {t : Chamber}, t.served = s.served → t.turnedAway = s.turnedAway → t.Justified := by
    intro t hserved hturned r hr hover
    rw [lastEnd_congr hserved]
    exact J r (hturned ▸ hr) hover
  -- with a visit still to come nobody has been told that it is over
  have hnone : ∀ {t : Chamber}, ¬ s.Full → t.turnedAway = s.turnedAway → t.Justified := by
    intro t hnot hturned r hr hover
    exact absurd (D.told r (hturned ▸ hr) hover).2 hnot
  cases moved_of_step h with
  | drained | returned => exact hkeep rfl rfl
  | doctorEvent next | ahead next | resume next =>
    exact hkeep (closeSession_served s next) (closeSession_turnedAway s next)
  | refused next k reason ha hkind hreason =>
    have hserved : ((s.closeSession next).turnAway next k reason).served = s.served := closeSession_served s next
    intro r hr hover
    rw [lastEnd_congr hserved]
    rcases List.mem_append.1 hr with hr | hr
    · exact J r (closeSession_turnedAway s next ▸ hr) hover
    · obtain rfl := List.mem_singleton.1 hr
      have D' := D.closeSession next
      have C' := (C.closeSession (by simp [ha.pc]) next).1
      have hpc : (s.closeSession next).pc ≠ .returned := by simp [ha.pc]
      obtain ⟨hisOver, hlate⟩ := refusal_sessionOver (hreason.trans (congrArg some hover))
      have hdone := done_of_isOver C' hpc hisOver
      have hfull := C'.done hpc hdone
      have htime := D'.done hdone hfull
      rw [lastEnd_congr (closeSession_served s next)] at htime
      by_cases hk : k = .reporter
      · exact P ((full_congr (closeSession_served s next)).1 hfull) next ha.mem_left (hk ▸ hkind)
      · rw [← htime]
        exact hlate hk
  | admitted next k d n ha hkind hreason =>
    exact hkeep (closeSession_served s next) (closeSession_turnedAway s next)
  | visited next k l v ha hkind hreason =>
    exact hnone (not_full_of_admitted C (by simp [ha.pc]) hreason) (closeSession_turnedAway s next)
  | other next s' ha hkind => exact absurd hkind (I.types next ha.mem_left)
  | others next k v hpc hlt hturn hv => exact hnone (not_full_of_waiting C hv) rfl
  | pending k v hpc hturn hv => exact hnone (not_full_of_waiting C hv) rfl

/-- A reporter who came before the end of the last visit is left, or has been told that the session is over. -/
def Missed (s : Chamber) : Prop :=
  s.Full ∧ ((∃ e ∈ s.left, kindOf e.type = some .reporter ∧ e.time ≤ s.lastEnd) ∨
    ∃ r ∈ s.turnedAway, r.reason = .sessionOver ∧ r.visitor.event.time ≤ s.lastEnd)

theorem Missed.step (M : s.Missed) (I : SchedInv s) (C : Counts s) (h : s.step i = some s') : s'.Missed := by
  obtain ⟨hfull, hmissed⟩ := M
  have hkeep : ∀ {t : Chamber}, t.served = s.served → t.left = s.left → t.turnedAway = s.turnedAway → t.Missed := by
    intro t hserved hleft hturned
    refine ⟨(full_congr hserved).2 hfull, ?_⟩
    rw [lastEnd_congr hserved, hleft, hturned]
    exact hmissed
  cases moved_of_step h with
  | drained | returned => exact hkeep rfl rfl rfl
  | doctorEvent next hpc hpos hhead hdoctor =>
    exact hkeep (closeSession_served s next) (left_delevent_doctor _ hpos hhead hdoctor rfl)
      (closeSession_turnedAway s next)
  | ahead next | resume next =>
    exact hkeep (closeSession_served s next) (left_congr (closeSession_E s next)) (closeSession_turnedAway s next)
  | refused next k reason ha hkind hreason =>
    have hserved : ((s.closeSession next).turnAway next k reason).served = s.served := closeSession_served s next
    have hturned : ((s.closeSession next).turnAway next k reason).turnedAway =
        s.turnedAway ++ [⟨⟨(s.closeSession next).num k + 1, next⟩, reason⟩] := by simp [turnAway]
    refine ⟨(full_congr hserved).2 hfull, ?_⟩
    rw [lastEnd_congr hserved, hturned]
    rcases hmissed with ⟨e, he, hreporter, htime⟩ | ⟨r, hr, hover, htime⟩
    · rw [left_refused ha k reason, Multiset.mem_cons] at he
      rcases he with rfl | he
      · obtain rfl : k = .reporter := Option.some.inj (hkind.symm.trans hreporter)
        exact .inr ⟨_, List.mem_append_right _ (List.mem_singleton_self _), refusal_reporter hreason, htime⟩
      · exact .inl ⟨e, he, hreporter, htime⟩
    · exact .inr ⟨r, List.mem_append_left _ hr, hover, htime⟩
  | admitted next k d n ha hkind hreason =>
    exact absurd hfull (not_full_of_admitted C (by simp [ha.pc]) hreason)
  | visited next k l v ha hkind hreason =>
    exact absurd hfull (not_full_of_admitted C (by simp [ha.pc]) hreason)
  | other next s' ha hkind => exact absurd hkind (I.types next ha.mem_left)
  | others next k v hpc hlt hturn hv => exact absurd hfull (not_full_of_waiting C hv)
  | pending k v hpc hturn hv => exact absurd hfull (not_full_of_waiting C hv)

/-! ## Runs -/

structure RefusalInv (arrivals : List Event) (n : Nat) (s : Chamber) : Prop where
  visitors : VisitorsInv arrivals n s
  done : DoneInv s

namespace RefusalInv

variable {n : Nat}

theorem init (htypes : ∀ e ∈ arrivals, kindOf e.type ≠ none) (hdur : ∀ e ∈ arrivals, 0 ≤ e.duration) :
    RefusalInv arrivals 0 (Chamber.init arrivals) := ⟨.init htypes hdur, .init arrivals⟩

theorem step (R : RefusalInv arrivals n s) (F : s.Fits) (h : s.step i = some s') : RefusalInv arrivals (n + 1) s' :=
  ⟨R.visitors.step F h, R.done.step R.visitors.sched F R.visitors.counts h⟩

theorem run (R : RefusalInv arrivals n s) {as : List Nat} (h : Trans.run Chamber.step s as = some s')
    (hfits : Trans.Along Chamber.step Fits s as) : RefusalInv arrivals (n + as.length) s' := by
  refine Trans.run_inv_along (I := fun as t => RefusalInv arrivals (n + as.length) t) R ?_ h hfits
  intro as t a t' R' F ht
  rw [List.length_append, ← Nat.add_assoc]
  exact R'.step F ht

theorem justified (R : RefusalInv arrivals n s) (J : s.Justified) {as : List Nat}
    (h : Trans.run Chamber.step s as = some s') (hfits : Trans.Along Chamber.step Fits s as)
    (hpunctual : ∀ n t, Trans.run Chamber.step s (as.take n) = some t → t.Punctual) : s'.Justified := by
  have hrun := Trans.run_inv_of_moves (I := fun t => (∃ n, RefusalInv arrivals n t) ∧ t.Justified)
    (P := fun t _ => t.Punctual ∧ t.Fits) ⟨⟨n, R⟩, J⟩ ?_ h fun n t a ht ha => ⟨hpunctual n t ht, hfits n t a ht ha⟩
  · exact hrun.2
  · rintro t a t' ⟨⟨n, R'⟩, J'⟩ ⟨hnow, F⟩ ht
    exact ⟨⟨n + 1, R'.step F ht⟩, J'.step hnow R'.done R'.visitors.sched R'.visitors.counts ht⟩

/-- A reporter who is missed is told so before the end. -/
theorem not_justified (R : RefusalInv arrivals n s) (M : s.Missed) {as : List Nat}
    (h : Trans.run Chamber.step s as = some s') (hend : s'.pc = .returned) : ¬ s'.Justified := by
  have hrun := Trans.run_inv (I := fun as t => RefusalInv arrivals (n + as.length) t ∧ t.Missed) ⟨R, M⟩ ?_ h
  · intro J
    obtain ⟨R', -, ⟨e, he, -⟩ | ⟨r, hr, hover, htime⟩⟩ := hrun
    · rw [(R'.visitors.ended hend).1] at he
      exact absurd he (Multiset.notMem_zero e)
    · exact absurd (J r hr hover) (not_lt.2 htime)
  · rintro as t a t' ⟨R', M'⟩ ht
    rw [List.length_append, ← Nat.add_assoc]
    have C := R'.visitors.counts
    exact ⟨R'.step (fits_of_full C M'.1) ht, M'.step R'.visitors.sched C ht⟩

/-- Where nobody is told so wrongly no reporter is missed on the way. -/
theorem punctual (R : RefusalInv arrivals n s) {as : List Nat} (h : Trans.run Chamber.step s as = some s')
    (hfits : Trans.Along Chamber.step Fits s as) (hend : s'.pc = .returned) (J : s'.Justified) (m : Nat)
    (ht : Trans.run Chamber.step s (as.take m) = some t) : t.Punctual := by
  by_contra hnot
  unfold Punctual at hnot
  push Not at hnot
  obtain ⟨hfull, e, he, hreporter, htime⟩ := hnot
  rw [← as.take_append_drop m, Trans.run_append, ht, Option.bind_some] at h
  exact (R.run ht (hfits.take m)).not_justified ⟨hfull, .inl ⟨e, he, hreporter, htime⟩⟩ h hend J

end RefusalInv

/-- **"Session over" means that the session is over** as long as no reporter is left behind the quotas who came before
the end of the last visit; in a run to the end of `main` with such a reporter it does not. `done_time` is the end of the
last visit. All of this while the visits fit. -/
theorem session_over_iff (arrivals : List Event) (htypes : ∀ e ∈ arrivals, kindOf e.type ≠ none)
    (hdur : ∀ e ∈ arrivals, 0 ≤ e.duration) (as : List Nat) (s : Chamber)
    (h : Trans.run Chamber.step (Chamber.init arrivals) as = some s)
    (hfits : Trans.Along Chamber.step Fits (Chamber.init arrivals) as) :
    ((∀ n t, Trans.run Chamber.step (Chamber.init arrivals) (as.take n) = some t → t.Punctual) → s.SessionOver) ∧
      (s.pc = .returned → (s.SessionOver ↔
        ∀ n t, Trans.run Chamber.step (Chamber.init arrivals) (as.take n) = some t → t.Punctual)) ∧
      (s.docSessionDone = true → s.Full → s.doneTime = s.lastEnd) := by
  have R := RefusalInv.init htypes hdur
  have D := (R.run h hfits).done
  have hall : (∀ n t, Trans.run Chamber.step (Chamber.init arrivals) (as.take n) = some t → t.Punctual) →
      s.SessionOver := fun hpunctual =>
    D.sessionOver_iff.2 (R.justified (fun r hr => absurd hr List.not_mem_nil) h hfits hpunctual)
  exact ⟨hall, fun hend => ⟨fun hover n t ht => R.punctual h hfits hend (D.sessionOver_iff.1 hover) n ht, hall⟩, D.done⟩

/-- Two patients and a reporter: the quotas are never reached. -/
theorem session_over_iff_three : ∃ s : Chamber,
    Trans.run Chamber.step (Chamber.init [⟨'P', -5, 10⟩, ⟨'P', 3, 7⟩, ⟨'R', 4, 6⟩]) (List.replicate 11 0) = some s ∧
      s.pc = .returned ∧ s.SessionOver := by
  obtain ⟨s, hs, hfits, hend⟩ := Trans.exists_along_of_run Chamber.step Fits
    (Chamber.init [⟨'P', -5, 10⟩, ⟨'P', 3, 7⟩, ⟨'R', 4, 6⟩]) (List.replicate 11 0) (fun s => decide (s.pc = .returned))
    (by decide +kernel)
  have hend := of_decide_eq_true hend
  have V : VisitorsInv [⟨'P', -5, 10⟩, ⟨'P', 3, 7⟩, ⟨'R', 4, 6⟩] 0 _ := .init (by decide) (by decide)
  exact ⟨s, hs, hend, (session_over_iff _ (by decide) (by decide) _ s hs hfits).1 fun n t ht hfull =>
    absurd hfull ((V.run ht (hfits.take n)).not_full_of_few (.inl (by decide)))⟩

/-! ## A reporter who comes during the last visit -/

/-- The others are the quotas and take `d` each, and the reporter `e` comes while the last of them is in the chamber. -/
structure DuringLast (arrivals : List Event) (others : Multiset Event) (e : Event) (d : Int) : Prop where
  straggler : Straggler arrivals others e 0
  card : others.card = 28
  lasts : ∀ a ∈ others, a.duration = d
  reporter : kindOf e.type = some .reporter
  during : 27 * d < e.time ∧ e.time ≤ 28 * d

namespace DuringLast

open Latecomer (Waits)

variable {others : Multiset Event} {d : Int} {n : Nat}

theorem served_le (L : DuringLast arrivals others e d) (V : VisitorsInv arrivals n s) (he : e ∈ s.left) :
    s.servedEvents ≤ others := by
  obtain ⟨rest, hrest⟩ := Multiset.exists_cons_of_mem he
  have hbalance := V.balance
  rw [hrest, L.straggler.split, Multiset.cons_add, Multiset.cons_inj_right] at hbalance
  rw [← hbalance]
  exact (served_le_handled V.counts).trans (Multiset.le_add_left _ _)

theorem busy_eq (L : DuringLast arrivals others e d) (V : VisitorsInv arrivals n s) (he : e ∈ s.left) :
    s.busy = s.served.length * d := by
  have hlasts : ∀ x ∈ s.served, x.visitor.event.duration = d := fun x hx =>
    L.lasts _ (Multiset.mem_of_le (L.served_le V he) (Multiset.mem_coe.2 (List.mem_map_of_mem hx)))
  rw [busy, List.map_congr_left hlasts, List.map_const', List.sum_replicate, nsmul_eq_mul]

theorem countKind_add_le (vs : Multiset Visitor) : countKind .patient vs + countKind .salesrep vs ≤ vs.card := by
  induction vs using Multiset.induction_on with
  | empty => rfl
  | cons v vs ih =>
    rw [countKind, countKind] at *
    rw [Multiset.countP_cons, Multiset.countP_cons, Multiset.card_cons]
    split_ifs with hpatient hsalesrep
    · exact absurd (hpatient.symm.trans hsalesrep) (by decide)
    all_goals omega

/-- As many visitors as the quotas are the quotas. -/
theorem full_iff (L : DuringLast arrivals others e d) (V : VisitorsInv arrivals n s) (he : e ∈ s.left) :
    s.Full ↔ s.served.length = 28 := by
  have hserved := L.served_le V he
  have hcount : ∀ k, countKind k s.seen = s.servedEvents.countP fun a => kindOf a.type = some k := by
    intro k
    rw [countKind, seen, servedEvents, Multiset.coe_countP, Multiset.coe_countP, List.countP_map, List.countP_map]
    rfl
  have hadmitted : ∀ k, countKind k s.seen ≤ countKind k s.admitted := by
    intro k
    rw [V.counts.admitted, countKind_add]
    exact Nat.le_add_right _ _
  have hcard := Multiset.card_le_card hserved
  rw [servedEvents, Multiset.coe_card, List.length_map, L.card] at hcard
  constructor
  · intro hfull
    have hle := countKind_add_le s.seen
    rw [hfull.1, hfull.2, seen, Multiset.coe_card, List.length_map] at hle
    exact le_antisymm hcard hle
  · intro hlength
    have hall := Multiset.eq_of_le_of_card_le hserved (by rw [L.card, servedEvents, Multiset.coe_card, List.length_map, hlength])
    have hp := hcount .patient
    have hs := hcount .salesrep
    rw [hall] at hp hs
    have hquotas := L.straggler.patients
    have hquotas' := L.straggler.salesreps
    have hle := hadmitted .patient
    have hle' := hadmitted .salesrep
    rw [V.counts.patients] at hle
    rw [V.counts.salesreps] at hle'
    exact ⟨by omega, by omega⟩

/-- When the quotas have been served the reporter has come: the visits took long enough. -/
theorem not_full (L : DuringLast arrivals others e d) (V : VisitorsInv arrivals n s) (P : s.Punctual) (he : e ∈ s.left) :
    ¬ s.Full := by
  intro hfull
  have hbusy := L.busy_eq V he
  rw [(L.full_iff V he).1 hfull] at hbusy
  have hend := V.sched.legal.sum_le_freeAt
  have hslots : (s.slots.map fun a => a.job.duration).sum = s.busy := by rw [slots, List.map_map, busy]; rfl
  rw [hslots] at hend
  have hlate : s.lastEnd < e.time := P hfull e he L.reporter
  have hduring := L.during.2
  rw [lastEnd] at hlate
  push_cast at hbusy
  omega

/-- And when it has come the quotas have been served. -/
theorem lt_time (L : DuringLast arrivals others e d) (V : VisitorsInv arrivals n s) (P : s.Punctual) (W : Waits e 0 s) :
    s.currentTime < e.time := by
  by_contra hcome
  have hclock := W.2
  rw [L.busy_eq V W.1] at hclock
  have hnot : s.served.length ≠ 28 := fun h => L.not_full V P W.1 ((L.full_iff V W.1).2 h)
  have hcard := Multiset.card_le_card (L.served_le V W.1)
  rw [servedEvents, Multiset.coe_card, List.length_map, L.card] at hcard
  have hduring := L.during
  have hfew : (s.served.length : Int) ≤ 27 := by omega
  have hpos : 0 ≤ d := by omega
  have hle := mul_le_mul_of_nonneg_right hfew hpos
  omega

/-- Some state on the way to the end is not punctual. -/
theorem not_punctual (L : DuringLast arrivals others e d) (htypes : ∀ e ∈ arrivals, kindOf e.type ≠ none)
    (hdur : ∀ e ∈ arrivals, 0 ≤ e.duration) {as : List Nat}
    (h : Trans.run Chamber.step (Chamber.init arrivals) as = some s)
    (hfits : Trans.Along Chamber.step Fits (Chamber.init arrivals) as) (hend : s.pc = .returned) :
    ¬ ∀ n t, Trans.run Chamber.step (Chamber.init arrivals) (as.take n) = some t → t.Punctual := by
  intro hpunctual
  have V := VisitorsInv.init htypes hdur
  have hwaits : Waits e 0 (Chamber.init arrivals) := by
    refine ⟨?_, by simp [busy, Chamber.init]⟩
    have hleft := V.balance
    have hhandled : (Chamber.init arrivals).handled = 0 := rfl
    rw [hhandled, Multiset.add_zero] at hleft
    rw [hleft, L.straggler.split]
    exact Multiset.mem_cons_self e others
  have hrun := Trans.run_inv_of_moves (I := fun t => (∃ n, VisitorsInv arrivals n t) ∧ t.Numbered ∧ Waits e 0 t)
    (P := fun t _ => t.Punctual ∧ t.Fits) ⟨⟨0, V⟩, fun k => rfl, hwaits⟩ ?_ h
    fun n t a ht ha => ⟨hpunctual n t ht, hfits n t a ht ha⟩
  · obtain ⟨⟨n, V'⟩, -, he, -⟩ := hrun
    rw [(V'.ended hend).1] at he
    exact absurd he (Multiset.notMem_zero e)
  · rintro t a t' ⟨⟨n, V'⟩, N, W⟩ ⟨P, F⟩ ht
    refine ⟨⟨n + 1, V'.step F ht⟩, N.step V'.sched ht, ?_⟩
    refine L.straggler.waits_step V' F W (L.lt_time V' P W) (fun hleft => ?_) ht
    by_contra hnobody
    push Not at hnobody
    exact L.not_full V' P W.1 (L.straggler.full V' N hleft hnobody)

end DuringLast

/-- 25 patients and 3 sales reps at time 0 who take 5 minutes each, and a reporter at time 136. -/
def longDay : List Event :=
  ⟨'R', 136, 1⟩ :: (List.replicate maxPatients ⟨'P', 0, 5⟩ ++ List.replicate maxSalesreps ⟨'S', 0, 5⟩)

/-- The last of the 28 visits is from 135 to 140: the reporter is told that the session is over. -/
theorem reporter_told_over : ¬ ∀ (arrivals : List Event), (∀ e ∈ arrivals, kindOf e.type ≠ none) →
    (∀ e ∈ arrivals, 0 ≤ e.duration) → ∀ (as : List Nat) (s : Chamber),
    Trans.run Chamber.step (Chamber.init arrivals) as = some s → s.SessionOver := by
  intro h
  have htypes : ∀ e ∈ longDay, kindOf e.type ≠ none := by decide
  have hdur : ∀ e ∈ longDay, 0 ≤ e.duration := by decide
  have hlast : DuringLast longDay
      (List.replicate maxPatients ⟨'P', 0, 5⟩ ++ List.replicate maxSalesreps ⟨'S', 0, 5⟩ : List Event) ⟨'R', 136, 1⟩ 5 :=
    ⟨⟨rfl, by decide, by decide, le_rfl, by decide, by decide⟩, by decide, by decide, rfl, by decide⟩
  have hample : Ample longDay 136 := ⟨by decide, by decide, by decide⟩
  obtain ⟨as, s, hs, hend⟩ := hample.exists_end htypes hdur
  have hfits := hample.along htypes hdur as
  have hover := h longDay htypes hdur as s hs
  -- were it right, the run would be punctual
  have R := RefusalInv.init htypes hdur
  have J := (R.run hs hfits).done.sessionOver_iff.1 hover
  exact hlast.not_punctual htypes hdur hs hfits hend fun n t ht => R.punctual hs hfits hend J n ht

end Chamber

end OsLab.A6
