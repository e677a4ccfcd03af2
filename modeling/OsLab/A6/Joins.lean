import OsLab.A6.Horizon

/-!
# The joins of the doctor (A6/session.c:305, :561, :634)

`main` joins the doctor for every event later than `done_time` it looks at once the quotas have been served, and at
its end once more. Nothing but visitors makes `current_time` pass `done_time`, so it is joined only there when no visitor
who is later than the clock is left behind the quotas (`Quiet`). Otherwise it is joined already in the loop
(`Late.step`), and again at the end.
-/

namespace OsLab.A6

namespace Chamber

variable {s s' t : Chamber} {i : Nat} {next e : Event} {arrivals : List Event}

/-- The calls of `pthread_join` on `doctor_thread`, with the one at :634. -/
def doctorJoins (s : Chamber) : Nat := s.joins + if s.pc = .returned then 1 else 0

instance (s : Chamber) : Decidable s.Full := inferInstanceAs (Decidable (_ ∧ _))

/-- When the quotas have been served nobody is left who comes later than now. -/
def Quiet (s : Chamber) : Prop := s.Full → ∀ e ∈ s.left, e.time ≤ s.currentTime

/-! ## The clock -/

structure ClockInv (s : Chamber) : Prop where
  ends : ∀ e ∈ s.E.events, e.type = 'D' → e.time ≤ s.currentTime
  doneTime : s.doneTime ≤ s.currentTime

theorem doneTime_checkSession (s : Chamber) :
    s.checkSession.doneTime = s.currentTime ∨ s.checkSession.doneTime = s.doneTime := by
  unfold checkSession
  split_ifs
  · exact .inl rfl
  · exact .inr rfl

@[simp] theorem checkSession_joins (s : Chamber) : s.checkSession.joins = s.joins := by
  unfold checkSession
  split_ifs <;> rfl

@[simp] theorem checkSession_currentTime (s : Chamber) : s.checkSession.currentTime = s.currentTime := by
  unfold checkSession
  split_ifs <;> rfl

theorem closeSession_doneTime_le (h : s.doneTime ≤ s.currentTime) (next : Event) :
    (s.closeSession next).doneTime ≤ s.currentTime := by
  have hcheck : s.checkSession.doneTime ≤ s.currentTime := by
    rcases s.doneTime_checkSession with h' | h' <;> omega
  have hleave : s.checkSession.leave ≤ s.currentTime := by
    unfold leave
    rw [checkSession_currentTime]
    split_ifs
    · exact le_rfl
    · exact hcheck
  unfold closeSession joinDoctor
  split_ifs
  · exact hleave
  · exact hcheck

namespace ClockInv

theorem init (htypes : ∀ e ∈ arrivals, kindOf e.type ≠ none) : ClockInv (Chamber.init arrivals) where
  ends e he htype := by
    rw [Chamber.init, initEQ_events, Multiset.mem_coe] at he
    exact absurd (by rw [htype]; rfl) (htypes e he)
  doneTime := le_rfl

/-- The queue loses events and the clock goes on. -/
theorem congr (K : ClockInv s) (hE : ∀ e ∈ s'.E.events, e ∈ s.E.events) (htime : s.currentTime ≤ s'.currentTime)
    (hdone : s'.doneTime ≤ s.currentTime) : ClockInv s' where
  ends e he htype := (K.ends e (hE e he) htype).trans htime
  doneTime := hdone.trans htime

theorem closeSession (K : ClockInv s) (next : Event) : ClockInv (s.closeSession next) :=
  K.congr (by simp) (by simp) (closeSession_doneTime_le K.doneTime next)

theorem visit (K : ClockInv s) {k : Kind} {v : Visitor} (hlater : s.currentTime ≤ (s.visit k i v).currentTime) :
    ClockInv (s.visit k i v) where
  ends e he htype := by
    rw [Chamber.visit, EventQ.enqueue_events, Multiset.mem_cons] at he
    rcases he with rfl | he
    · exact le_rfl
    · exact (K.ends e he htype).trans hlater
  doneTime := K.doneTime.trans hlater

theorem mem_delevent (hpos : 0 < s.E.n) (he : e ∈ s.E.delevent.events) : e ∈ s.E.events := by
  rw [EventQ.delevent_events hpos]
  exact Multiset.mem_cons_of_mem he

theorem step (K : ClockInv s) (I : SchedInv s) (F : s.Fits) (h : s.step i = some s') : ClockInv s' := by
  have hclose : ∀ next, (s.closeSession next).doneTime ≤ s.currentTime :=
    fun next => closeSession_doneTime_le K.doneTime next
  have hlater : ∀ {k : Kind} {v : Visitor}, (s.waiting k)[i]? = some v → s.currentTime ≤ (s.visit k i v).currentTime := by
    intro k v hv
    have hend := I.visit_currentTime hv ((F k).1 v (List.mem_of_getElem? hv))
    have hdur := I.duration_nonneg (List.mem_of_getElem? hv)
    omega
  cases moved_of_step h with
  | drained => exact K.congr (fun _ he => he) le_rfl K.doneTime
  | doctorEvent next hpc hpos => exact K.congr (fun e => mem_delevent hpos) (by simp) (hclose next)
  | ahead next => exact K.congr (by simp) (by simp) (hclose next)
  | refused next k reason ha =>
    refine K.congr (fun e he => mem_delevent ha.pos ?_) (by simp [turnAway]) (hclose next)
    simpa [turnAway] using he
  | admitted next k d n ha => exact K.congr (fun e => mem_delevent ha.pos) (by simp [admitVisitor]) (hclose next)
  | visited next k l v ha hkind hreason hnow hfree hturn hv =>
    have hadmit : ClockInv ((s.closeSession next).admitVisitor next k) :=
      (K.closeSession next).congr (fun _ he => he) le_rfl (K.closeSession next).doneTime
    obtain ⟨hend, hdur⟩ := served_currentTime I F ha hkind hreason hv
    have hclock : ((s.closeSession next).admitVisitor next k).currentTime = s.currentTime := by simp [admitVisitor]
    have hvisit := hadmit.visit (i := i) (k := l) (v := v) (by omega)
    refine hvisit.congr (fun e => mem_delevent (Nat.succ_pos _)) ?_ hvisit.doneTime
    unfold finish
    dsimp only
    split_ifs <;> omega
  | other next s' ha hkind => exact absurd hkind (I.types next ha.mem_left)
  | others next k v hpc hlt hturn hv => exact K.visit (hlater hv)
  | resume next =>
    refine K.congr (by simp) ?_ (hclose next)
    dsimp only
    split_ifs <;> omega
  | pending k v hpc hturn hv => exact K.visit (hlater hv)
  | returned =>
    refine K.congr (fun _ he => he) le_rfl ?_
    show s.leave ≤ s.currentTime
    unfold leave
    split_ifs
    · exact le_rfl
    · exact K.doneTime

end ClockInv

/-! ## The joins in the loop -/

theorem checkSession_done_iff (C : Counts s) (hpc : s.pc ≠ .returned) :
    s.checkSession.docSessionDone = true ↔ s.Full := by
  obtain ⟨C', hdone, hpc'⟩ := C.checkSession hpc
  have hserved : s.checkSession.Full ↔ s.Full := by
    unfold checkSession
    split_ifs <;> rfl
  exact ⟨fun h => hserved.1 (C'.done (hpc'.symm ▸ hpc) h), hdone⟩

/-- The doctor is joined for an event later than `done_time` when the quotas have been served. -/
theorem closeSession_eq_if (C : Counts s) (hpc : s.pc ≠ .returned) (next : Event) :
    s.closeSession next = if s.Full ∧ s.checkSession.doneTime < next.time then
      { s.checkSession with joins := s.joins + 1, doneTime := s.checkSession.leave } else s.checkSession := by
  unfold closeSession joinDoctor
  rw [checkSession_joins]
  exact if_congr (and_congr_left' (checkSession_done_iff C hpc)) rfl rfl

/-- Once the flag is set `done_time` is the time now. -/
def Settled (s : Chamber) : Prop := s.joins = 0 ∧ (s.pc ≠ .returned → s.docSessionDone = true → s.doneTime = s.currentTime)

/-- An event that is not late. -/
theorem Settled.closeSession (S : Settled s) (C : Counts s) (hpc : s.pc ≠ .returned)
    (hnext : s.Full → next.time ≤ s.currentTime) :
    (s.closeSession next).joins = 0 ∧
      ((s.closeSession next).docSessionDone = true → s.Full ∧ (s.closeSession next).doneTime = s.currentTime) := by
  have htime : s.checkSession.docSessionDone = true → s.checkSession.doneTime = s.currentTime := by
    unfold checkSession
    split_ifs
    · exact fun _ => rfl
    · exact S.2 hpc
  have hdone := checkSession_done_iff C hpc
  have hnot : ¬ (s.Full ∧ s.checkSession.doneTime < next.time) := by
    rintro ⟨hfull, hlt⟩
    rw [htime (hdone.2 hfull)] at hlt
    exact absurd (hnext hfull) (not_le.2 hlt)
  rw [closeSession_eq_if C hpc, if_neg hnot, checkSession_joins]
  exact ⟨S.1, fun h => ⟨hdone.1 h, htime h⟩⟩

/-- No join in the loop while the state is quiet. -/
theorem Settled.step (S : Settled s) (hquiet : s.Quiet) (I : SchedInv s) (C : Counts s) (K : ClockInv s)
    (h : s.step i = some s') : Settled s' := by
  have hvisit : ∀ {k : Kind} {v : Visitor}, (s.waiting k)[i]? = some v → s.pc ≠ .returned → Settled (s.visit k i v) := by
    intro k v hv hpc
    refine ⟨S.1, fun _ hdone => ?_⟩
    have hempty := C.full (C.done hpc hdone) k
    rw [hempty] at hv
    cases hv
  cases moved_of_step h with
  | drained hpc => exact ⟨S.1, fun _ => S.2 (by simp [hpc])⟩
  | doctorEvent next hpc hpos hhead hdoctor =>
    have hnext := K.ends next (hhead ▸ EventQ.nextevent_mem hpos) hdoctor
    obtain ⟨hjoins, hdone⟩ := S.closeSession C (by simp [hpc]) fun _ => hnext
    refine ⟨hjoins, fun _ h => ?_⟩
    rw [closeSession_currentTime]
    exact (hdone h).2
  | ahead next hpc hpos hhead htype =>
    have hmem : next ∈ s.left := Chamber.mem_left.2 ⟨hhead ▸ EventQ.nextevent_mem hpos, htype⟩
    obtain ⟨hjoins, hdone⟩ := S.closeSession C (by simp [hpc]) fun hfull => hquiet hfull next hmem
    refine ⟨hjoins, fun _ h => ?_⟩
    rw [closeSession_currentTime]
    exact (hdone h).2
  | refused next k reason ha =>
    obtain ⟨hjoins, hdone⟩ := S.closeSession C (by simp [ha.pc]) fun _ => ha.time
    refine ⟨hjoins, fun _ h => ?_⟩
    show _ = (s.closeSession next).currentTime
    rw [closeSession_currentTime]
    exact (hdone h).2
  | admitted next k d n ha hkind hreason =>
    have hpc : s.pc ≠ .returned := by simp [ha.pc]
    obtain ⟨C', hdone'⟩ := C.closeSession hpc next
    have hnot := C'.not_full (by simpa using hpc) hdone' hreason
    obtain ⟨hjoins, -⟩ := S.closeSession C hpc fun _ => ha.time
    exact ⟨hjoins, fun _ h => absurd (C'.done (by simpa using hpc) h) hnot⟩
  | visited next k l v ha hkind hreason =>
    have hpc : s.pc ≠ .returned := by simp [ha.pc]
    obtain ⟨C', hdone'⟩ := C.closeSession hpc next
    have hnot := C'.not_full (by simpa using hpc) hdone' hreason
    obtain ⟨hjoins, -⟩ := S.closeSession C hpc fun _ => ha.time
    exact ⟨hjoins, fun _ h => absurd (C'.done (by simpa using hpc) h) hnot⟩
  | other next s' ha hkind => exact absurd hkind (I.types next ha.mem_left)
  | others next k v hpc hlt hturn hv => exact hvisit hv (by simp [hpc])
  | resume next hpc hnobody =>
    have hstage := I.stage
    rw [Stage, hpc] at hstage
    have hnext : s.Full → next.time ≤ s.currentTime := fun hfull => hquiet hfull next hstage.1
    obtain ⟨hjoins, hdone⟩ := S.closeSession C (by simp [hpc]) hnext
    refine ⟨hjoins, fun _ h => ?_⟩
    obtain ⟨hfull, htime⟩ := hdone h
    dsimp only
    rw [if_neg (not_lt.2 (hnext hfull))]
    exact htime
  | pending k v hpc hturn hv => exact hvisit hv (by simp [hpc])
  | returned => exact ⟨S.1, fun h => absurd rfl h⟩

/-- The quotas have been served, and a visitor is to come later. -/
def Late (s : Chamber) : Prop := s.Full ∧ ∃ e ∈ s.left, s.currentTime < e.time

theorem not_quiet_iff : ¬ s.Quiet ↔ s.Late := by
  unfold Quiet Late
  push Not
  rfl

/-- The clock passes the visitor only with a join. -/
theorem Late.step (L : s.Late) (I : SchedInv s) (C : Counts s) (K : ClockInv s) (h : s.step i = some s') :
    0 < s'.joins ∨ s'.Late := by
  obtain ⟨hfull, e, he, hlt⟩ := L
  have hempty : ∀ {k : Kind} {v : Visitor}, ¬ (s.waiting k)[i]? = some v := by
    intro k v hv
    rw [C.full hfull k] at hv
    cases hv
  have hkeep : ∀ {t : Chamber}, t.served = s.served → e ∈ t.left → t.currentTime = s.currentTime → t.Late := by
    intro t hserved hmem htime
    have hseen : t.seen = s.seen := by rw [seen, hserved, seen]
    exact ⟨by rw [Full, hseen]; exact hfull, e, hmem, htime ▸ hlt⟩
  cases moved_of_step h with
  | drained hpc hzero =>
    rw [left, EventQ.events, hzero] at he
    exact absurd he (Multiset.notMem_zero e)
  | doctorEvent next hpc hpos hhead hdoctor =>
    have hleft := left_delevent_doctor { s.closeSession next with E := s.E.delevent } hpos hhead hdoctor rfl
    exact .inr (hkeep (by simp) (hleft.symm ▸ he) (by simp))
  | ahead next =>
    have hleft : left { s.closeSession next with docArrived := .awaited, pc := .others next } = s.left :=
      left_congr (closeSession_E s next)
    exact .inr (hkeep (by simp) (hleft.symm ▸ he) (by simp))
  | refused next k reason ha =>
    have hserved : ((s.closeSession next).turnAway next k reason).served = s.served := closeSession_served s next
    have htime : ((s.closeSession next).turnAway next k reason).currentTime = s.currentTime :=
      closeSession_currentTime s next
    refine .inr (hkeep hserved ?_ htime)
    have hleft := left_refused ha k reason
    rw [hleft, Multiset.mem_cons] at he
    refine he.resolve_left fun heq => ?_
    have htime := ha.time
    rw [heq] at hlt
    omega
  | admitted next k d n ha hkind hreason | visited next k l v ha hkind hreason =>
    have hpc : s.pc ≠ .returned := by simp [ha.pc]
    obtain ⟨C', hdone'⟩ := C.closeSession hpc next
    have hseen : (s.closeSession next).seen = s.seen := by rw [seen, closeSession_served, seen]
    exact absurd (by rw [Full, hseen]; exact hfull) (C'.not_full (by simpa using hpc) hdone' hreason)
  | other next s' ha hkind => exact absurd hkind (I.types next ha.mem_left)
  | others next k v hpc _ hturn hv => exact absurd hv hempty
  | resume next hpc =>
    by_cases hnext : s.currentTime < next.time
    · left
      have hdone : s.checkSession.doneTime < next.time := by
        have hle := K.doneTime
        rcases s.doneTime_checkSession with h | h <;> omega
      show 0 < (s.closeSession next).joins
      rw [closeSession_eq_if C (by simp [hpc]), if_pos ⟨hfull, hdone⟩]
      exact Nat.succ_pos _
    · have hleft : left { s.closeSession next with
          currentTime := if s.currentTime < next.time then next.time else s.currentTime
          docArrived := .free
          pc := .top } = s.left := left_congr (closeSession_E s next)
      exact .inr (hkeep (closeSession_served s next) (hleft.symm ▸ he) (if_neg hnext))
  | pending k v hpc hturn hv => exact absurd hv hempty
  | returned hpc =>
    have hstage := I.stage
    rw [Stage, hpc] at hstage
    rw [hstage] at he
    exact absurd he (Multiset.notMem_zero e)

/-! ## Runs -/

structure JoinInv (s : Chamber) : Prop where
  sched : SchedInv s
  counts : Counts s
  clock : ClockInv s

namespace JoinInv

theorem init (htypes : ∀ e ∈ arrivals, kindOf e.type ≠ none) (hdur : ∀ e ∈ arrivals, 0 ≤ e.duration) :
    JoinInv (Chamber.init arrivals) :=
  ⟨.init htypes hdur, .init arrivals, .init htypes⟩

theorem step (J : JoinInv s) (F : s.Fits) (h : s.step i = some s') : JoinInv s' :=
  ⟨J.sched.step F h, J.counts.step J.sched h, J.clock.step J.sched F h⟩

theorem run (J : JoinInv s) {as : List Nat} (h : Trans.run Chamber.step s as = some s')
    (hfits : Trans.Along Chamber.step Fits s as) : JoinInv s' :=
  Trans.run_inv_along (I := fun _ t => JoinInv t) J (fun _ _ _ _ J F ht => J.step F ht) h hfits

theorem settled (J : JoinInv s) (S : Settled s) {as : List Nat} (h : Trans.run Chamber.step s as = some s')
    (hfits : Trans.Along Chamber.step Fits s as)
    (hquiet : ∀ n t, Trans.run Chamber.step s (as.take n) = some t → t.Quiet) : Settled s' :=
  (Trans.run_inv_of_moves (I := fun t => JoinInv t ∧ Settled t) (P := fun t _ => t.Quiet ∧ t.Fits) ⟨J, S⟩
    (fun _ _ _ ⟨J, S⟩ ⟨hnow, F⟩ ht => ⟨J.step F ht, S.step hnow J.sched J.counts J.clock ht⟩) h
    fun n t a ht ha => ⟨hquiet n t ht, hfits n t a ht ha⟩).2

/-- A visitor who is late makes `main` join the doctor before its end; there are no visits any more. -/
theorem joins_of_late (J : JoinInv s) (L : s.Late) {as : List Nat} (h : Trans.run Chamber.step s as = some s')
    (hend : s'.pc = .returned) : 0 < s'.joins := by
  have hrun := Trans.run_inv (I := fun _ t => JoinInv t ∧ (0 < t.joins ∨ t.Late)) ⟨J, .inr L⟩ ?_ h
  · rcases hrun.2 with hjoins | ⟨-, e, he, -⟩
    · exact hjoins
    · have hstage := hrun.1.sched.stage
      rw [Stage, hend] at hstage
      rw [hstage] at he
      exact absurd he (Multiset.notMem_zero e)
  · rintro _ t a t' ⟨J', hor⟩ ht
    have hfull : t.Full := hor.elim J'.counts.joins And.left
    refine ⟨J'.step (fits_of_full J'.counts hfull) ht, ?_⟩
    rcases hor with hjoins | hlate
    · exact .inl (hjoins.trans_le (Chamber.joins_le J'.sched ht))
    · exact hlate.step J'.sched J'.counts J'.clock ht

end JoinInv

/-- The served are among the arrivals. -/
theorem countKind_seen_le {n : Nat} (V : VisitorsInv arrivals n s) (k : Kind) :
    countKind k s.seen ≤ arrivals.countP fun e => kindOf e.type = some k := by
  have hseen : countKind k s.seen ≤ countKind k s.admitted := by
    rw [V.counts.admitted, countKind_add]
    exact Nat.le_add_right _ _
  have hevents : countKind k s.admitted = (s.admitted.map Visitor.event).countP fun e => kindOf e.type = some k := by
    rw [List.countP_map, countKind, Multiset.coe_countP]
    rfl
  have hsub : ((s.admitted.map Visitor.event : List Event) : Multiset Event) ≤ arrivals := by
    rw [← V.balance, handled]
    exact (Multiset.le_add_right _ _).trans (Multiset.le_add_left _ _)
  have hcount := Multiset.countP_le_of_le (fun e => kindOf e.type = some k) hsub
  rw [Multiset.coe_countP, Multiset.coe_countP] at hcount
  omega

/-- The quotas are not reached when not that many come. -/
theorem VisitorsInv.not_full_of_few {n : Nat} (V : VisitorsInv arrivals n s)
    (hfew : (arrivals.countP fun e => kindOf e.type = some .patient) < maxPatients ∨
      (arrivals.countP fun e => kindOf e.type = some .salesrep) < maxSalesreps) : ¬ s.Full := by
  rintro ⟨hpatients, hsalesreps⟩
  have hp := countKind_seen_le V .patient
  have hs := countKind_seen_le V .salesrep
  omega

/-- **The doctor is joined once** in the runs in which nobody is left who comes later than the clock when the quotas have
been served, and more often in all others in which the visits fit. -/
theorem doctor_joined_once_iff (arrivals : List Event) (htypes : ∀ e ∈ arrivals, kindOf e.type ≠ none)
    (hdur : ∀ e ∈ arrivals, 0 ≤ e.duration) (as : List Nat) (s : Chamber)
    (h : Trans.run Chamber.step (Chamber.init arrivals) as = some s)
    (hfits : Trans.Along Chamber.step Fits (Chamber.init arrivals) as) (hend : s.pc = .returned) :
    s.doctorJoins = 1 ↔ ∀ n t, Trans.run Chamber.step (Chamber.init arrivals) (as.take n) = some t → t.Quiet := by
  have J := JoinInv.init htypes hdur
  rw [doctorJoins, if_pos hend]
  constructor
  · intro hone n t ht
    by_contra hlate
    rw [← as.take_append_drop n, Trans.run_append, ht, Option.bind_some] at h
    have hjoins := (J.run ht (hfits.take n)).joins_of_late (not_quiet_iff.1 hlate) h hend
    omega
  · intro hquiet
    have hnone := (J.settled ⟨rfl, fun _ hdone => by cases hdone⟩ h hfits hquiet).1
    rw [hnone]

/-- Two patients and a reporter: the quotas are never reached. -/
theorem doctor_joined_once_iff_three : ∃ s : Chamber,
    Trans.run Chamber.step (Chamber.init [⟨'P', -5, 10⟩, ⟨'P', 3, 7⟩, ⟨'R', 4, 6⟩]) (List.replicate 11 0) = some s ∧
      s.pc = .returned ∧ s.doctorJoins = 1 := by
  obtain ⟨s, hs, hfits, hend⟩ := Trans.exists_along_of_run Chamber.step Fits
    (Chamber.init [⟨'P', -5, 10⟩, ⟨'P', 3, 7⟩, ⟨'R', 4, 6⟩]) (List.replicate 11 0) (fun s => decide (s.pc = .returned))
    (by decide +kernel)
  have hend := of_decide_eq_true hend
  have V : VisitorsInv [⟨'P', -5, 10⟩, ⟨'P', 3, 7⟩, ⟨'R', 4, 6⟩] 0 _ := .init (by decide) (by decide)
  exact ⟨s, hs, hend, (doctor_joined_once_iff _ (by decide) (by decide) _ s hs hfits hend).2 fun n t ht =>
    fun hfull => absurd hfull ((V.run ht (hfits.take n)).not_full_of_few (.inl (by decide)))⟩

/-! ## A visitor who comes when everybody has been served -/

/-- The ids count the arrivals of a kind. -/
def Numbered (s : Chamber) : Prop := ∀ k, s.num k = s.handled.countP fun e => kindOf e.type = some k

theorem Numbered.push (N : s.Numbered) {k : Kind} (hk : kindOf next.type = some k)
    (hnum : t.num = Function.update s.num k (s.num k + 1)) (hhandled : t.handled = next ::ₘ s.handled) : t.Numbered := by
  intro l
  rw [hnum, hhandled, Multiset.countP_cons, ← N l]
  by_cases hl : l = k
  · rw [hl, Function.update_self, if_pos hk]
  · rw [Function.update_of_ne hl, if_neg fun h => hl (Option.some.inj (h.symm.trans hk)), Nat.add_zero]

theorem Numbered.congr (N : s.Numbered) (hnum : t.num = s.num) (hhandled : t.handled = s.handled) : t.Numbered := by
  intro k
  rw [hnum, hhandled]
  exact N k

theorem Numbered.step (N : s.Numbered) (I : SchedInv s) (h : s.step i = some s') : s'.Numbered := by
  have hclose : ∀ next, (s.closeSession next).Numbered := fun next => N.congr (by simp) (by simp [handled])
  cases moved_of_step h with
  | drained | others | pending | returned => exact N
  | doctorEvent next | ahead next | resume next => exact hclose next
  | refused next k reason ha hk => exact (hclose next).push hk rfl (handled_turnAway _ next k reason)
  | admitted next k d n ha hk => exact (hclose next).push hk rfl (handled_admitVisitor _ next k)
  | visited next k l v ha hk => exact (hclose next).push hk rfl (handled_admitVisitor _ next k)
  | other next s' ha hk => exact absurd hk (I.types next ha.mem_left)

/-- The arrivals besides `e` fill the quotas and come by time `m`, and `e` comes when all could have been served. -/
structure Latecomer (arrivals : List Event) (others : Multiset Event) (e : Event) (m : Int) : Prop where
  split : (arrivals : Multiset Event) = e ::ₘ others
  patients : maxPatients ≤ others.countP fun a => kindOf a.type = some .patient
  salesreps : maxSalesreps ≤ others.countP fun a => kindOf a.type = some .salesrep
  nonneg : 0 ≤ m
  others_le : ∀ a ∈ others, a.time ≤ m
  late : m + (arrivals.map Event.duration).sum < e.time

/-- The same without the bound on the visits: `e` comes behind the others. -/
structure Straggler (arrivals : List Event) (others : Multiset Event) (e : Event) (m : Int) : Prop where
  split : (arrivals : Multiset Event) = e ::ₘ others
  patients : maxPatients ≤ others.countP fun a => kindOf a.type = some .patient
  salesreps : maxSalesreps ≤ others.countP fun a => kindOf a.type = some .salesrep
  nonneg : 0 ≤ m
  others_le : ∀ a ∈ others, a.time ≤ m
  behind : m < e.time

/-- The clock has not gone beyond what the others take. -/
def Latecomer.Waits (e : Event) (m : Int) (s : Chamber) : Prop := e ∈ s.left ∧ s.currentTime ≤ m + s.busy

namespace Straggler

open Latecomer (Waits)

variable {others : Multiset Event} {m : Int} {n : Nat}

theorem time_le (L : Straggler arrivals others e m) (V : VisitorsInv arrivals n s) {a : Event} (ha : a ∈ s.left)
    (hne : a ≠ e) : a.time ≤ m := by
  have hmem : a ∈ (arrivals : Multiset Event) := by
    rw [← V.balance]
    exact Multiset.mem_add.2 (.inl ha)
  rw [L.split, Multiset.mem_cons] at hmem
  exact L.others_le a (hmem.resolve_left hne)

theorem not_mem (L : Straggler arrivals others e m) : e ∉ others := by
  intro he
  have htime := L.others_le e he
  have hbehind := L.behind
  omega

/-- When only the straggler is left and nobody waits, the quotas have been served. -/
theorem full (L : Straggler arrivals others e m) (V : VisitorsInv arrivals n s) (N : s.Numbered)
    (hleft : ∀ a ∈ s.left, e.time ≤ a.time) (hnobody : ∀ k, s.waiting k = []) : s.Full := by
  have honly : ∀ a ∈ s.left, a = e := by
    intro a ha
    by_contra hne
    have htime := L.time_le V ha hne
    have hle := hleft a ha
    have hbehind := L.behind
    omega
  have hhandled : others ≤ s.handled := by
    rw [Multiset.le_iff_count]
    intro a
    by_cases hae : a = e
    · rw [hae, Multiset.count_eq_zero_of_notMem L.not_mem]
      exact Nat.zero_le _
    · have hnot : a ∉ s.left := fun ha => hae (honly a ha)
      have hcount := congrArg (Multiset.count a) (V.balance.trans L.split)
      rw [Multiset.count_add, Multiset.count_eq_zero_of_notMem hnot, Multiset.count_cons_of_ne hae] at hcount
      omega
  have hseen : (s.admitted : Multiset Visitor) = s.seen := by
    have hall : s.waitingAll = 0 := by simp [waitingAll, hnobody]
    rw [V.counts.admitted, hall, Multiset.add_zero]
  have hp := Multiset.countP_le_of_le (fun a => kindOf a.type = some .patient) hhandled
  have hs := Multiset.countP_le_of_le (fun a => kindOf a.type = some .salesrep) hhandled
  rw [← N] at hp hs
  have hpatients := V.counts.patients
  have hsalesreps := V.counts.salesreps
  rw [hseen, Nat.min_eq_right (L.patients.trans hp)] at hpatients
  rw [hseen, Nat.min_eq_right (L.salesreps.trans hs)] at hsalesreps
  exact ⟨hpatients, hsalesreps⟩

/-- It is not the straggler who comes while its time has not come. -/
theorem mem_of_arrives {next : Event} (W : Waits e m s) (hlt : s.currentTime < e.time) (ha : s.Arrives next)
    (hleft : s.left = next ::ₘ s'.left) : e ∈ s'.left := by
  have he := W.1
  rw [hleft, Multiset.mem_cons] at he
  refine he.resolve_left fun heq => ?_
  have htime := ha.time
  rw [← heq] at htime
  omega

/-- The straggler waits while its time has not come and the clock does not move on to it. -/
theorem waits_step (L : Straggler arrivals others e m) (V : VisitorsInv arrivals n s) (F : s.Fits) (W : Waits e m s)
    (hlt : s.currentTime < e.time)
    (hskip : (∀ a ∈ s.left, e.time ≤ a.time) → ∃ k, s.waiting k ≠ []) (h : s.step i = some s') : Waits e m s' := by
  refine ⟨?_, clock_le_step V.sched F W.2 (fun next hpc hahead hturn => ?_) h⟩
  · cases moved_of_step h with
    | drained => exact W.1
    | doctorEvent next hpc hpos hhead hdoctor =>
      have hleft := left_delevent_doctor { s.closeSession next with E := s.E.delevent } hpos hhead hdoctor rfl
      exact hleft ▸ W.1
    | ahead next | resume next => exact (left_congr (closeSession_E s next)).symm ▸ W.1
    | refused next k reason ha => exact mem_of_arrives W hlt ha (left_refused ha k reason)
    | admitted next k d n ha => exact mem_of_arrives W hlt ha (left_admitted ha k d n)
    | visited next k l v ha hk hreason hnow hfree hturn hv =>
      exact mem_of_arrives W hlt ha (left_served V.sched F ha hk hreason hnow hv)
    | other next s' ha hk => exact absurd hk (V.sched.types next ha.mem_left)
    | others next k v => exact (left_visit s k i v).symm ▸ W.1
    | pending k v hpc | returned hpc =>
      have hstage := V.sched.stage
      rw [Stage, hpc] at hstage
      have he := W.1
      rw [hstage] at he
      exact absurd he (Multiset.notMem_zero e)
  · have hstage := V.sched.stage
    rw [Stage, hpc] at hstage
    refine L.time_le V hstage.1 ?_
    rintro rfl
    obtain ⟨k, hk⟩ := hskip hstage.2
    exact hk (turn_eq_none.1 hturn k)

end Straggler

namespace Latecomer

variable {others : Multiset Event} {m : Int} {n : Nat}

theorem straggler (L : Latecomer arrivals others e m) (hdur : ∀ e ∈ arrivals, 0 ≤ e.duration) :
    Straggler arrivals others e m := by
  have hsum : 0 ≤ (arrivals.map Event.duration).sum := by
    apply List.sum_nonneg
    intro d hd
    obtain ⟨a, ha, rfl⟩ := List.mem_map.1 hd
    exact hdur a ha
  have hlate := L.late
  exact ⟨L.split, L.patients, L.salesreps, L.nonneg, L.others_le, by omega⟩

theorem lt_time (L : Latecomer arrivals others e m) (hdur : ∀ e ∈ arrivals, 0 ≤ e.duration) (V : VisitorsInv arrivals n s)
    (W : Waits e m s) : s.currentTime < e.time := by
  have hbusy := busy_le V hdur
  have hlate := L.late
  have hclock := W.2
  omega

/-- The latecomer waits until the state is late. -/
theorem step (L : Latecomer arrivals others e m) (hdur : ∀ e ∈ arrivals, 0 ≤ e.duration) (V : VisitorsInv arrivals n s)
    (F : s.Fits) (N : s.Numbered) (hnot : ¬ s.Late) (W : Waits e m s) (h : s.step i = some s') : Waits e m s' := by
  have hlt := L.lt_time hdur V W
  refine (L.straggler hdur).waits_step V F W hlt (fun hleft => ?_) h
  by_contra hnobody
  push Not at hnobody
  exact hnot ⟨(L.straggler hdur).full V N hleft hnobody, e, W.1, hlt⟩

/-- The doctor is joined before the end of `main`. -/
theorem joins_pos (L : Latecomer arrivals others e m) (htypes : ∀ e ∈ arrivals, kindOf e.type ≠ none)
    (hdur : ∀ e ∈ arrivals, 0 ≤ e.duration) {as : List Nat}
    (h : Trans.run Chamber.step (Chamber.init arrivals) as = some s)
    (hfits : Trans.Along Chamber.step Fits (Chamber.init arrivals) as) (hend : s.pc = .returned) : 0 < s.joins := by
  have V := VisitorsInv.init htypes hdur
  have N : (Chamber.init arrivals).Numbered := fun k => rfl
  have W : Waits e m (Chamber.init arrivals) := by
    refine ⟨?_, by simpa [busy, Chamber.init] using L.nonneg⟩
    have hleft := V.balance
    have hhandled : (Chamber.init arrivals).handled = 0 := rfl
    rw [hhandled, Multiset.add_zero] at hleft
    rw [hleft, L.split]
    exact Multiset.mem_cons_self e others
  have hrun := Trans.run_inv_along (I := fun as t => VisitorsInv arrivals (0 + as.length) t ∧ ClockInv t ∧ t.Numbered ∧
    (0 < t.joins ∨ t.Late ∨ Waits e m t)) ⟨V, .init htypes, N, .inr (.inr W)⟩ ?_ h hfits
  · obtain ⟨V', -, -, hor⟩ := hrun
    have hleft := (V'.ended hend).1
    rcases hor with hjoins | ⟨-, a, ha, -⟩ | ⟨he, -⟩
    · exact hjoins
    · exact absurd (hleft ▸ ha) (Multiset.notMem_zero a)
    · exact absurd (hleft ▸ he) (Multiset.notMem_zero e)
  · rintro as t a t' ⟨V', K, N', hor⟩ F ht
    rw [List.length_append, ← Nat.add_assoc]
    refine ⟨V'.step F ht, K.step V'.sched F ht, N'.step V'.sched ht, ?_⟩
    by_cases hlate : t.Late
    · rcases hlate.step V'.sched V'.counts K ht with hjoins | hlate
      · exact .inl hjoins
      · exact .inr (.inl hlate)
    · rcases hor with hjoins | hlate' | W'
      · exact .inl (hjoins.trans_le (Chamber.joins_le V'.sched ht))
      · exact absurd hlate' hlate
      · exact .inr (.inr (L.step hdur V' F N' hlate W' ht))

end Latecomer

/-- 25 patients and 3 sales reps at time 0, and a reporter at time 100. -/
def busyDay : List Event :=
  ⟨'R', 100, 5⟩ :: (List.replicate maxPatients ⟨'P', 0, 1⟩ ++ List.replicate maxSalesreps ⟨'S', 0, 1⟩)

/-- The reporter comes when the doctor has left. -/
theorem doctor_joined_again : ¬ ∀ (arrivals : List Event), (∀ e ∈ arrivals, kindOf e.type ≠ none) →
    (∀ e ∈ arrivals, 0 ≤ e.duration) → ∀ (as : List Nat) (s : Chamber),
    Trans.run Chamber.step (Chamber.init arrivals) as = some s → s.pc = .returned → s.doctorJoins = 1 := by
  intro h
  have htypes : ∀ e ∈ busyDay, kindOf e.type ≠ none := by decide
  have hdur : ∀ e ∈ busyDay, 0 ≤ e.duration := by decide
  have hlate : Latecomer busyDay
      (List.replicate maxPatients ⟨'P', 0, 1⟩ ++ List.replicate maxSalesreps ⟨'S', 0, 1⟩ : List Event)
      ⟨'R', 100, 5⟩ 0 :=
    ⟨rfl, by decide, by decide, le_rfl, by decide, by decide⟩
  have hample : Ample busyDay 100 := ⟨by decide, by decide, by decide⟩
  obtain ⟨as, s, hs, hend⟩ := hample.exists_end htypes hdur
  have hjoins := hlate.joins_pos htypes hdur hs (hample.along htypes hdur as) hend
  have hone := h busyDay htypes hdur as s hs hend
  rw [doctorJoins, if_pos hend] at hone
  omega

end Chamber

end OsLab.A6
