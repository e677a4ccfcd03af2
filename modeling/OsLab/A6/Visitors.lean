import Mathlib.Data.Multiset.AddSub
import OsLab.A6.Schedule

/-!
# No visitor is lost (A6/session.c)

The queue, the admitted and those turned away make up the arrivals (`balance_step`); the admitted are those that
were served and those that wait (`Counts`). When the last patient and the last sales rep of the quotas have been
served nobody waits, because a reporter would have come first, and from then on reporters are turned away as well
(`Counts.full`), so nobody waits when the doctor is joined. Every step brings `main` nearer to its end (`measure_lt`).
-/

namespace OsLab.A6

open Function (update)

namespace Chamber

variable {s s' : Chamber} {i : Nat} {k l : Kind} {v : Visitor} {next : Event} {reason : Reason}
  {arrivals : List Event}

def waitingAll (s : Chamber) : Multiset Visitor :=
  (s.waiting .reporter : Multiset Visitor) + (s.waiting .patient : Multiset Visitor) +
    (s.waiting .salesrep : Multiset Visitor)

/-- Who has been in the chamber. -/
def seen (s : Chamber) : Multiset Visitor := (s.served.map Visit.visitor : List Visitor)

def countKind (k : Kind) (vs : Multiset Visitor) : Nat := vs.countP fun v => kindOf v.event.type = some k

/-- The quotas have been served. -/
def Full (s : Chamber) : Prop := countKind .patient s.seen = maxPatients ∧ countKind .salesrep s.seen = maxSalesreps

theorem countKind_add (k : Kind) (vs ws : Multiset Visitor) :
    countKind k (vs + ws) = countKind k vs + countKind k ws := Multiset.countP_add _ _ _

theorem countKind_cons (k l : Kind) (v : Visitor) (vs : Multiset Visitor) (h : kindOf v.event.type = some l) :
    countKind k (v ::ₘ vs) = countKind k vs + if l = k then 1 else 0 := by
  rw [countKind, Multiset.countP_cons, countKind]
  simp only [h, Option.some.injEq]

/-! ## Waiting and seen -/

theorem waitingAll_push (s : Chamber) (next : Event) (k : Kind) :
    (s.admitVisitor next k).waitingAll = ⟨s.num k + 1, next⟩ ::ₘ s.waitingAll := by
  have hpush : ((s.waiting k ++ [⟨s.num k + 1, next⟩] : List Visitor) : Multiset Visitor) =
      ⟨s.num k + 1, next⟩ ::ₘ (s.waiting k : Multiset Visitor) := by
    rw [← Multiset.coe_add, Multiset.coe_singleton, Multiset.add_comm, Multiset.singleton_add]
  cases k <;> simp only [waitingAll, admitVisitor, Function.update_self, ne_eq, reduceCtorEq, not_false_eq_true,
    Function.update_of_ne, hpush, Multiset.cons_add, Multiset.add_cons]

theorem waitingAll_visit (hv : (s.waiting k)[i]? = some v) : s.waitingAll = v ::ₘ (s.visit k i v).waitingAll := by
  obtain ⟨hi, hget⟩ := List.getElem?_eq_some_iff.1 hv
  have herase : (s.waiting k : Multiset Visitor) =
      v ::ₘ (((s.waiting k).eraseIdx i : List Visitor) : Multiset Visitor) := by
    rw [Multiset.cons_coe, Multiset.coe_eq_coe, ← hget]
    exact (List.getElem_cons_eraseIdx_perm hi).symm
  cases k <;> simp only [waitingAll, visit, Function.update_self, ne_eq, reduceCtorEq, not_false_eq_true,
    Function.update_of_ne, herase, Multiset.cons_add, Multiset.add_cons]

theorem seen_visit (s : Chamber) (k : Kind) (i : Nat) (v : Visitor) : (s.visit k i v).seen = v ::ₘ s.seen := by
  rw [seen, visit, List.map_append, ← Multiset.coe_add, Multiset.add_comm]
  rfl

theorem count_waiting (hkinds : ∀ k, ∀ v ∈ s.waiting k, kindOf v.event.type = some k) (k : Kind) :
    countKind k s.waitingAll = (s.waiting k).length := by
  have hcount : ∀ l, countKind k (s.waiting l) = if l = k then (s.waiting l).length else 0 := by
    intro l
    rw [countKind, Multiset.coe_countP]
    split_ifs with hlk
    · rw [List.countP_eq_length]
      intro v hv
      simpa [hlk] using hkinds l v hv
    · rw [List.countP_eq_zero]
      intro v hv
      simpa [hkinds l v hv] using hlk
  rw [waitingAll, countKind_add, countKind_add, hcount, hcount, hcount]
  cases k <;> simp

/-! ## The counters -/

structure Counts (s : Chamber) : Prop where
  admitted : (s.admitted : Multiset Visitor) = s.seen + s.waitingAll
  ids : ∀ v ∈ s.admitted, ∀ k, kindOf v.event.type = some k → v.id ≤ s.num k
  nodup : s.admitted.Nodup
  patients : countKind .patient s.admitted = min (s.num .patient) maxPatients
  salesreps : countKind .salesrep s.admitted = min (s.num .salesrep) maxSalesreps
  served : s.pc ≠ .returned →
    s.numServedPatients = countKind .patient s.seen + s.docSessionDone.toNat ∧
      s.numServedSalesreps = countKind .salesrep s.seen + s.docSessionDone.toNat
  done : s.pc ≠ .returned → s.docSessionDone = true → s.Full
  joins : 0 < s.joins → s.Full
  full : s.Full → ∀ k, s.waiting k = []

namespace Counts

theorem init (arrivals : List Event) : Counts (Chamber.init arrivals) := by
  have hnot : ¬ (Chamber.init arrivals).Full := fun h => by
    have hnone := h.1
    simp [countKind, seen, Chamber.init, maxPatients] at hnone
  exact ⟨rfl, fun _ h => absurd h List.not_mem_nil, .nil, rfl, rfl, fun _ => ⟨rfl, rfl⟩,
    fun _ h => absurd h (by simp [Chamber.init]), fun h => absurd h (lt_irrefl 0), fun h => absurd h hnot⟩

/-- The queue, the clock and `doc_arrived` do not matter, nor the position. -/
theorem congr (C : Counts s) (hadmitted : s'.admitted = s.admitted) (hserved : s'.served = s.served)
    (hwaiting : s'.waiting = s.waiting) (hnum : s'.num = s.num)
    (hpatients : s'.numServedPatients = s.numServedPatients)
    (hsalesreps : s'.numServedSalesreps = s.numServedSalesreps) (hdone : s'.docSessionDone = s.docSessionDone)
    (hjoins : s'.joins = s.joins) (hpc : s.pc ≠ .returned) : Counts s' := by
  have hseen : s'.seen = s.seen := by rw [seen, hserved, seen]
  have hall : s'.waitingAll = s.waitingAll := by rw [waitingAll, hwaiting, waitingAll]
  have hfull : s'.Full ↔ s.Full := by rw [Full, hseen, Full]
  exact ⟨by rw [hadmitted, hseen, hall]; exact C.admitted, by rw [hadmitted, hnum]; exact C.ids, hadmitted ▸ C.nodup,
    by rw [hadmitted, hnum]; exact C.patients, by rw [hadmitted, hnum]; exact C.salesreps,
    fun _ => by rw [hpatients, hsalesreps, hseen, hdone]; exact C.served hpc,
    fun _ h => hfull.2 (C.done hpc (hdone ▸ h)), fun h => hfull.2 (C.joins (hjoins ▸ h)),
    fun h => hwaiting ▸ C.full (hfull.1 h)⟩

/-- The flag is set when the quotas have been served, and then the counters pass their bounds. -/
theorem checkSession (C : Counts s) (hpc : s.pc ≠ .returned) :
    Counts s.checkSession ∧ (s.Full → s.checkSession.docSessionDone = true) ∧ s.checkSession.pc = s.pc := by
  obtain ⟨hpatients, hsalesreps⟩ := C.served hpc
  unfold Chamber.checkSession
  split_ifs with hnow
  · obtain ⟨hdone, hp, hs⟩ := hnow
    rw [hdone, Bool.toNat_false, Nat.add_zero] at hpatients hsalesreps
    have hfull : s.Full := ⟨hpatients.symm.trans hp, hsalesreps.symm.trans hs⟩
    refine ⟨⟨C.admitted, C.ids, C.nodup, C.patients, C.salesreps, fun _ => ⟨?_, ?_⟩, fun _ _ => hfull, C.joins,
      C.full⟩, fun _ => rfl, rfl⟩
    · exact congrArg (· + 1) hpatients
    · exact congrArg (· + 1) hsalesreps
  · refine ⟨C, fun hfull => ?_, rfl⟩
    by_contra hdone
    rw [Bool.not_eq_true] at hdone
    rw [hdone, Bool.toNat_false, Nat.add_zero] at hpatients hsalesreps
    exact hnow ⟨hdone, hpatients.trans hfull.1, hsalesreps.trans hfull.2⟩

theorem closeSession (C : Counts s) (hpc : s.pc ≠ .returned) (next : Event) :
    Counts (s.closeSession next) ∧ ((s.closeSession next).Full → (s.closeSession next).docSessionDone = true) := by
  obtain ⟨C', hdone, hpc'⟩ := C.checkSession hpc
  have hserved : s.checkSession.Full ↔ s.Full := by
    unfold Chamber.checkSession
    split_ifs <;> rfl
  rw [← hserved] at hdone
  unfold Chamber.closeSession joinDoctor
  split_ifs with hover
  · have hfull := C'.done (hpc' ▸ hpc) hover.1
    exact ⟨⟨C'.admitted, C'.ids, C'.nodup, C'.patients, C'.salesreps, C'.served, C'.done, fun _ => hfull,
      C'.full⟩, hdone⟩
  · exact ⟨C', hdone⟩

/-- Nobody is admitted any more when the quotas have been served. -/
theorem not_full (C : Counts s) (hpc : s.pc ≠ .returned) (hdone : s.Full → s.docSessionDone = true)
    (h : s.refusal next k = none) : ¬ s.Full := by
  intro hfull
  have hle : ∀ k, countKind k s.seen ≤ countKind k s.admitted := by
    intro k
    rw [C.admitted, countKind_add]
    exact Nat.le_add_right _ _
  cases k with
  | reporter =>
    obtain ⟨hpatients, hsalesreps⟩ := C.served hpc
    rw [hdone hfull, hfull.1] at hpatients
    rw [hdone hfull, hfull.2] at hsalesreps
    have hover : s.isOver := ⟨by rw [hpatients]; decide, by rw [hsalesreps]; decide⟩
    rw [refusal, if_pos hover] at h
    cases h
  | patient =>
    have hquota : maxPatients ≤ s.num .patient := by
      have hcount := hle .patient
      rw [hfull.1, C.patients] at hcount
      exact hcount.trans (min_le_left _ _)
    rw [refusal, if_pos hquota] at h
    cases h
  | salesrep =>
    have hquota : maxSalesreps ≤ s.num .salesrep := by
      have hcount := hle .salesrep
      rw [hfull.2, C.salesreps] at hcount
      exact hcount.trans (min_le_left _ _)
    rw [refusal, if_pos hquota] at h
    cases h

theorem turnAway (C : Counts s) (h : s.refusal next k = some reason) :
    Counts (s.turnAway next k reason) := by
  have hnum : ∀ l, s.num l ≤ (s.turnAway next k reason).num l := by
    intro l
    by_cases hl : l = k
    · simp [Chamber.turnAway, hl]
    · simp [Chamber.turnAway, hl]
  refine ⟨C.admitted, fun v hv l hl => (C.ids v hv l hl).trans (hnum l), C.nodup, ?_, ?_, C.served, C.done, C.joins,
    C.full⟩
  · refine C.patients.trans ?_
    cases k <;> simp only [Chamber.turnAway, Function.update_self, ne_eq, reduceCtorEq, not_false_eq_true,
      Function.update_of_ne]
    rw [refusal, Option.ite_none_right_eq_some] at h
    omega
  · refine C.salesreps.trans ?_
    cases k <;> simp only [Chamber.turnAway, Function.update_self, ne_eq, reduceCtorEq, not_false_eq_true,
      Function.update_of_ne]
    rw [refusal, Option.ite_none_right_eq_some] at h
    omega

theorem admitVisitor (C : Counts s) (hnot : ¬ s.Full) (hk : kindOf next.type = some k) (h : s.refusal next k = none) :
    Counts (s.admitVisitor next k) := by
  have hadmitted : ((s.admitVisitor next k).admitted : Multiset Visitor) =
      ⟨s.num k + 1, next⟩ ::ₘ (s.admitted : Multiset Visitor) := by
    rw [Chamber.admitVisitor, ← Multiset.coe_add, Multiset.add_comm]
    rfl
  have hnum : ∀ l, (s.admitVisitor next k).num l = s.num l + if k = l then 1 else 0 := by
    intro l
    by_cases hl : k = l
    · simp [Chamber.admitVisitor, hl]
    · simp [Chamber.admitVisitor, hl, Ne.symm hl]
  have hcount : ∀ l, countKind l (s.admitVisitor next k).admitted =
      countKind l s.admitted + if k = l then 1 else 0 := by
    intro l
    rw [hadmitted, countKind_cons l k ⟨s.num k + 1, next⟩ _ hk]
  refine ⟨?_, fun v hv l hl => ?_, ?_, ?_, ?_, C.served, C.done, C.joins, fun hfull => absurd hfull hnot⟩
  · rw [hadmitted, waitingAll_push, C.admitted, Multiset.add_cons]
    rfl
  · rw [hnum]
    rcases List.mem_append.1 hv with hv | hv
    · exact (C.ids v hv l hl).trans (Nat.le_add_right _ _)
    · obtain rfl := List.mem_singleton.1 hv
      obtain rfl : k = l := Option.some.inj (hk.symm.trans hl)
      rw [if_pos rfl]
  · refine List.nodup_append.2 ⟨C.nodup, List.nodup_singleton _, fun v hv w hw hvw => ?_⟩
    obtain rfl := List.mem_singleton.1 hw
    subst hvw
    exact absurd (C.ids _ hv k hk) (Nat.not_succ_le_self _)
  · rw [hcount, hnum, C.patients]
    cases k with
    | patient =>
      rw [refusal] at h
      split_ifs at h with hquota
      simp only [if_true]
      omega
    | reporter => simp
    | salesrep => simp
  · rw [hcount, hnum, C.salesreps]
    cases k with
    | salesrep =>
      rw [refusal] at h
      split_ifs at h with hquota
      simp only [if_true]
      omega
    | reporter => simp
    | patient => simp

/-- **A visit.** If it completes the quotas nobody waits behind it: the patients and sales reps have all been
served, and a reporter would have been next. -/
theorem visit (C : Counts s) (I : SchedInv s) (hpc : s.pc ≠ .returned) (hturn : s.turn = some k)
    (hv : (s.waiting k)[i]? = some v) : Counts (s.visit k i v) := by
  have hmem : v ∈ s.waiting k := List.mem_of_getElem? hv
  have hk := I.kinds k v hmem
  have hseen := seen_visit s k i v
  have hadmitted : (s.admitted : Multiset Visitor) = (s.visit k i v).seen + (s.visit k i v).waitingAll := by
    rw [C.admitted, waitingAll_visit hv, hseen, Multiset.add_cons, Multiset.cons_add]
  have hnot : ¬ s.Full := fun hfull => List.ne_nil_of_mem hmem (C.full hfull k)
  have hcount : ∀ l, countKind l (s.visit k i v).seen = countKind l s.seen + if k = l then 1 else 0 := by
    intro l
    rw [hseen, countKind_cons l k v _ hk]
  obtain ⟨hpatients, hsalesreps⟩ := C.served hpc
  refine ⟨hadmitted, C.ids, C.nodup, C.patients, C.salesreps, fun _ => ⟨?_, ?_⟩,
    fun _ h => absurd (C.done hpc h) hnot, fun h => absurd (C.joins h) hnot, fun hfull => ?_⟩
  · rw [hcount]
    show (if k = .patient then s.numServedPatients + 1 else s.numServedPatients) = _ + s.docSessionDone.toNat
    split_ifs <;> omega
  · rw [hcount]
    show (if k = .salesrep then s.numServedSalesreps + 1 else s.numServedSalesreps) = _ + s.docSessionDone.toNat
    split_ifs <;> omega
  · have hwaiting : ∀ l, countKind l s.admitted =
        countKind l (s.visit k i v).seen + ((s.visit k i v).waiting l).length := by
      intro l
      rw [hadmitted, countKind_add, count_waiting fun l w hw => I.kinds l w (mem_of_mem_waiting_visit hw)]
    have hreporter : k ≠ .reporter := by
      rintro rfl
      have hsame : ∀ l, l ≠ .reporter → countKind l (s.visit .reporter i v).seen = countKind l s.seen := by
        intro l hl
        rw [hcount, if_neg hl.symm, Nat.add_zero]
      exact hnot ⟨(hsame .patient (by decide)).symm.trans hfull.1, (hsame .salesrep (by decide)).symm.trans hfull.2⟩
    intro l
    cases l with
    | reporter =>
      have hnone := (turn_eq_some hturn).2.1 hreporter
      simpa [Chamber.visit, hreporter.symm] using hnone
    | patient =>
      have hp := hwaiting .patient
      rw [hfull.1, C.patients] at hp
      exact List.eq_nil_of_length_eq_zero (by omega)
    | salesrep =>
      have hs := hwaiting .salesrep
      rw [hfull.2, C.salesreps] at hs
      exact List.eq_nil_of_length_eq_zero (by omega)

theorem step (C : Counts s) (I : SchedInv s) (h : s.step i = some s') : Counts s' := by
  cases moved_of_step h with
  | drained hpc => exact C.congr rfl rfl rfl rfl rfl rfl rfl rfl (by simp [hpc])
  | doctorEvent next hpc =>
    have hpc' : (s.closeSession next).pc ≠ .returned := by simp [hpc]
    exact (C.closeSession (by simp [hpc]) next).1.congr rfl rfl rfl rfl rfl rfl rfl rfl hpc'
  | ahead next hpc =>
    have hpc' : (s.closeSession next).pc ≠ .returned := by simp [hpc]
    exact (C.closeSession (by simp [hpc]) next).1.congr rfl rfl rfl rfl rfl rfl rfl rfl hpc'
  | refused next k reason ha hkind hreason =>
    exact (C.closeSession (by simp [ha.pc]) next).1.turnAway hreason
  | admitted next k d n ha hkind hreason hd =>
    have hpc' : (s.closeSession next).pc ≠ .returned := by simp [ha.pc]
    obtain ⟨C', hdone⟩ := C.closeSession (by simp [ha.pc]) next
    exact (C'.admitVisitor (C'.not_full hpc' hdone hreason) hkind hreason).congr rfl rfl rfl rfl rfl rfl rfl rfl hpc'
  | visited next k l v ha hkind hreason hnow hfree hturn hv =>
    have hpc' : (s.closeSession next).pc ≠ .returned := by simp [ha.pc]
    obtain ⟨C', hdone⟩ := C.closeSession (by simp [ha.pc]) next
    have C'' := C'.admitVisitor (C'.not_full hpc' hdone hreason) hkind hreason
    exact (C''.visit (I.arrive ha hkind) hpc' hturn hv).congr rfl rfl rfl rfl rfl rfl rfl rfl hpc'
  | other next s' ha hkind => exact absurd hkind (I.types next ha.mem_left)
  | others next k v hpc hlt hturn hv => exact C.visit I (by simp [hpc]) hturn hv
  | resume next hpc hnobody =>
    have hpc' : (s.closeSession next).pc ≠ .returned := by simp [hpc]
    exact (C.closeSession (by simp [hpc]) next).1.congr rfl rfl rfl rfl rfl rfl rfl rfl hpc'
  | pending k v hpc hturn hv => exact C.visit I (by simp [hpc]) hturn hv
  | returned hpc hturn =>
    exact ⟨C.admitted, C.ids, C.nodup, C.patients, C.salesreps, fun h => absurd rfl h, fun h => absurd rfl h, C.joins,
      C.full⟩

end Counts

theorem full_congr (hserved : s'.served = s.served) : s'.Full ↔ s.Full := by rw [Full, seen, hserved, Full, seen]

/-- When the quotas have been served nobody is visited any more. -/
theorem not_full_of_waiting (C : Counts s) (hv : (s.waiting k)[i]? = some v) : ¬ s.Full := by
  intro hfull
  rw [C.full hfull k] at hv
  cases hv

/-- And nobody is admitted. -/
theorem not_full_of_admitted (C : Counts s) (hpc : s.pc ≠ .returned) (h : (s.closeSession next).refusal next k = none) :
    ¬ s.Full := by
  obtain ⟨C', hdone⟩ := C.closeSession hpc next
  have hnot := C'.not_full (by simpa using hpc) hdone h
  rwa [full_congr (closeSession_served s next)] at hnot

/-- So there is no visit that could make the clock wrap. -/
theorem fits_of_full (C : Counts s) (hfull : s.Full) : s.Fits := by
  refine fun k => ⟨fun v hv => ?_, fun ⟨hpc, _, _, _, hreason⟩ => ?_⟩
  · rw [C.full hfull k] at hv
    exact absurd hv List.not_mem_nil
  · exact absurd hfull (not_full_of_admitted C (by simp [hpc]) hreason)

/-! ## The arrivals -/

/-- The arrivals that `main` is done with. -/
def handled (s : Chamber) : Multiset Event :=
  (s.admitted.map Visitor.event : List Event) + (s.turnedAway.map fun r => r.visitor.event : List Event)

theorem left_delevent (t : Chamber) (hpos : 0 < s.E.n) (hhead : s.E.nextevent = next) (htype : next.type ≠ 'D')
    (hE : t.E = s.E.delevent) : s.left = next ::ₘ t.left := by
  have hnext := Multiset.filter_cons_of_pos (p := fun e : Event => e.type ≠ 'D') s.E.delevent.events htype
  rw [left, EventQ.delevent_events hpos, hhead, hnext, left, hE]

theorem left_delevent_doctor (t : Chamber) (hpos : 0 < s.E.n) (hhead : s.E.nextevent = next) (htype : next.type = 'D')
    (hE : t.E = s.E.delevent) : t.left = s.left := by
  have hnext := Multiset.filter_cons_of_neg (p := fun e : Event => e.type ≠ 'D') s.E.delevent.events (not_not.2 htype)
  rw [left, hE, left, EventQ.delevent_events hpos, hhead, hnext]

/-- The visitor who has come in is still the next event when the end of a visit has been added. -/
theorem left_visited (ha : s.Arrives next) (hk : kindOf next.type = some k) {t : Chamber} (hE : t.E = s.E) (l : Kind)
    (hend : next.time ≤ (t.visit l i v).currentTime) : s.left = next ::ₘ ((t.visit l i v).finish next).left := by
  have hlt : key s.E.nextevent < key ⟨'D', (t.visit l i v).currentTime, 0⟩ := by
    have hclass : classOf next.type < classOf 'D' := by
      rw [classOf_of_kind hk]
      cases k <;> decide
    rw [ha.head, ← not_le, key_le_iff]
    rintro (hbefore | ⟨-, hsame⟩)
    · exact absurd hend (not_le.2 hbefore)
    · exact absurd hsame (not_le.2 hclass)
  have hpos : 0 < (t.visit l i v).E.n := Nat.succ_pos _
  have hhead : (t.visit l i v).E.nextevent = next := by
    show (t.E.enqueue ⟨'D', (t.visit l i v).currentTime, 0⟩).nextevent = next
    rw [hE, EventQ.enqueue_nextevent ha.pos hlt, ha.head]
  have hleft : (t.visit l i v).left = s.left := by rw [left_visit, left_congr hE]
  rw [← hleft]
  exact left_delevent _ hpos hhead ha.type rfl

/-- Whoever comes in leaves the queue: refused, made to wait, or with a visit at once. -/
theorem left_refused (ha : s.Arrives next) (k : Kind) (reason : Reason) :
    s.left = next ::ₘ ((s.closeSession next).turnAway next k reason).left :=
  left_delevent _ ha.pos ha.head ha.type (by simp [turnAway])

theorem left_admitted (ha : s.Arrives next) (k : Kind) (d : DocArrived) (n : Nat) :
    s.left = next ::ₘ left { (s.closeSession next).admitVisitor next k with
      docArrived := d, numVisitors := n, E := s.E.delevent } :=
  left_delevent _ ha.pos ha.head ha.type rfl

/-- Whoever is served when `next` comes leaves when the duration has passed. -/
theorem served_currentTime (I : SchedInv s) (F : s.Fits) (ha : s.Arrives next) (hk : kindOf next.type = some k)
    (hreason : (s.closeSession next).refusal next k = none)
    (hv : (((s.closeSession next).admitVisitor next k).waiting l)[i]? = some v) :
    (((s.closeSession next).admitVisitor next k).visit l i v).currentTime = s.currentTime + v.event.duration ∧
      0 ≤ v.event.duration := by
  have hclock : ((s.closeSession next).admitVisitor next k).currentTime = s.currentTime := by simp [admitVisitor]
  have hfit := F.admitted ha hk hreason (List.mem_of_getElem? hv)
  rw [(I.arrive ha hk).visit_currentTime hv (by rwa [hclock]), hclock]
  exact ⟨rfl, (I.arrive ha hk).duration_nonneg (List.mem_of_getElem? hv)⟩

theorem left_served (I : SchedInv s) (F : s.Fits) (ha : s.Arrives next) (hk : kindOf next.type = some k)
    (hreason : (s.closeSession next).refusal next k = none) (hnow : s.currentTime = next.time)
    (hv : (((s.closeSession next).admitVisitor next k).waiting l)[i]? = some v) :
    s.left = next ::ₘ ((((s.closeSession next).admitVisitor next k).visit l i v).finish next).left := by
  obtain ⟨hend, hdur⟩ := served_currentTime I F ha hk hreason hv
  exact left_visited (t := (s.closeSession next).admitVisitor next k) ha hk (closeSession_E s next) l (by omega)

theorem handled_admitVisitor (s : Chamber) (next : Event) (k : Kind) :
    (s.admitVisitor next k).handled = next ::ₘ s.handled := by
  have hpush : ((s.admitVisitor next k).admitted.map Visitor.event : Multiset Event) =
      next ::ₘ (s.admitted.map Visitor.event : Multiset Event) := by
    rw [admitVisitor, List.map_append, ← Multiset.coe_add, Multiset.add_comm]
    rfl
  rw [handled, hpush, Multiset.cons_add]
  rfl

theorem handled_turnAway (s : Chamber) (next : Event) (k : Kind) (reason : Reason) :
    (s.turnAway next k reason).handled = next ::ₘ s.handled := by
  have hpush : ((s.turnAway next k reason).turnedAway.map (fun r => r.visitor.event) : Multiset Event) =
      next ::ₘ (s.turnedAway.map (fun r => r.visitor.event) : Multiset Event) := by
    rw [turnAway, List.map_append, ← Multiset.coe_add, Multiset.add_comm]
    rfl
  rw [handled, hpush, Multiset.add_cons]
  rfl

/-- Every arrival is in the queue or has been handled, once. -/
theorem balance_step (I : SchedInv s) (F : s.Fits) (h : s.step i = some s') : s'.left + s'.handled = s.left + s.handled := by
  have hclose : ∀ next, (s.closeSession next).handled = s.handled := fun next => by simp [handled]
  cases moved_of_step h with
  | drained => rfl
  | doctorEvent next hpc hpos hhead hdoctor =>
    have hleft := left_delevent_doctor { s.closeSession next with E := s.E.delevent } hpos hhead hdoctor rfl
    rw [hleft]
    exact congrArg _ (hclose next)
  | ahead next => exact congrArg₂ _ (left_congr (closeSession_E s next)) (hclose next)
  | refused next k reason ha hkind hreason =>
    rw [handled_turnAway, hclose, left_refused ha k reason, Multiset.add_cons, Multiset.cons_add]
  | admitted next k d n ha hkind hreason hd =>
    have hhandled := handled_admitVisitor (s.closeSession next) next k
    rw [hclose] at hhandled
    rw [left_admitted ha k d n, Multiset.cons_add, ← Multiset.add_cons, ← hhandled]
    rfl
  | visited next k l v ha hkind hreason hnow hfree hturn hv =>
    have hhandled := handled_admitVisitor (s.closeSession next) next k
    rw [hclose] at hhandled
    rw [left_served I F ha hkind hreason hnow hv, Multiset.cons_add, ← Multiset.add_cons, ← hhandled]
    rfl
  | other next s' ha hkind => exact absurd hkind (I.types next ha.mem_left)
  | others next k v => exact congrArg₂ _ (left_visit s k i v) rfl
  | resume next => exact congrArg₂ _ (left_congr (closeSession_E s next)) (hclose next)
  | pending k v => exact congrArg₂ _ (left_visit s k i v) rfl
  | returned => rfl

/-! ## The end of main -/

/-- The next arrival is not ahead of the clock. -/
def Due (s : Chamber) : Prop := ∃ e ∈ s.left, e.time ≤ s.currentTime

instance (s : Chamber) : Decidable s.Due := Multiset.decidableExistsMultiset

def weight (s : Chamber) : Nat :=
  match s.pc with
  | .top => if s.Due then 2 else 4
  | .others _ => 3
  | .pending => 1
  | .returned => 0

/-- What is still to do. -/
def measure (s : Chamber) : Nat := 5 * s.left.card + s.E.n + 2 * s.waitingAll.card + s.weight

theorem weight_top (hpc : s.pc = .top) : 2 ≤ s.weight ∧ s.weight ≤ 4 := by
  rw [weight, hpc]
  dsimp only
  split_ifs <;> omega

theorem weight_due (hpc : s.pc = .top) (h : s.Due) : s.weight = 2 := by
  rw [weight, hpc]
  exact if_pos h

theorem weight_congr (hpc : s'.pc = s.pc) (hleft : s'.left = s.left) (htime : s'.currentTime = s.currentTime) :
    s'.weight = s.weight := by
  have hdue : s'.Due ↔ s.Due := by rw [Due, hleft, htime, Due]
  rw [weight, weight, hpc]
  simp only [hdue]

/-- Only the weight counts. -/
theorem measure_weight (hleft : s'.left = s.left) (hn : s'.E.n = s.E.n) (hwaiting : s'.waitingAll = s.waitingAll)
    (hweight : s'.weight < s.weight) : measure s' < measure s := by
  rw [measure, measure, hleft, hn, hwaiting]
  omega

/-- An arrival is handled. -/
theorem measure_arrival (hpc : s.pc = .top) (hpc' : s'.pc = .top) (hleft : s.left = next ::ₘ s'.left)
    (hn : s'.E.n ≤ s.E.n) (hwaiting : s'.waitingAll.card ≤ s.waitingAll.card + 1) : measure s' < measure s := by
  have hweight := weight_top hpc
  have hweight' := weight_top hpc'
  rw [measure, measure, hleft, Multiset.card_cons]
  omega

theorem measure_visit (hpc : s.pc ≠ .top) (hv : (s.waiting k)[i]? = some v) :
    measure (s.visit k i v) < measure s := by
  have hweight : (s.visit k i v).weight = s.weight := by
    rw [weight, weight, show (s.visit k i v).pc = s.pc from rfl]
    split
    · contradiction
    all_goals rfl
  have hn : (s.visit k i v).E.n = s.E.n + 1 := rfl
  rw [measure, measure, hweight, hn, left_visit, waitingAll_visit hv, Multiset.card_cons]
  omega

/-- The doctor is told to come for an event that is still ahead. -/
theorem measure_ahead (I : SchedInv s) (hpc : s.pc = .top) (hpos : 0 < s.E.n) (hhead : s.E.nextevent = next)
    (hlt : s.currentTime < next.time) :
    measure { s.closeSession next with docArrived := .awaited, pc := .others next } < measure s := by
  have hweight : s.weight = 4 := by
    rw [weight, hpc]
    refine if_neg ?_
    rintro ⟨e, he, hdue⟩
    have hle := (key_le_iff _ _).1 (I.head_le hpos hhead he)
    omega
  apply measure_weight
  · exact left_congr (closeSession_E s next)
  · simp
  · simp [waitingAll]
  · rw [hweight]
    simp [weight]

/-- The event that was ahead is due. -/
theorem measure_resume (hpc : s.pc = .others next) (hnext : next ∈ s.left) :
    measure { s.closeSession next with
      currentTime := if s.currentTime < next.time then next.time else s.currentTime
      docArrived := .free
      pc := .top } < measure s := by
  have hweight : s.weight = 3 := by rw [weight, hpc]
  have hleft : left { s.closeSession next with
      currentTime := if s.currentTime < next.time then next.time else s.currentTime
      docArrived := .free
      pc := .top } = s.left := left_congr (closeSession_E s next)
  have hdue : Due { s.closeSession next with
      currentTime := if s.currentTime < next.time then next.time else s.currentTime
      docArrived := .free
      pc := .top } := by
    refine ⟨next, hleft ▸ hnext, ?_⟩
    dsimp only
    split_ifs <;> omega
  apply measure_weight hleft
  · simp
  · simp [waitingAll]
  · rw [weight_due rfl hdue, hweight]
    omega

theorem measure_lt (I : SchedInv s) (F : s.Fits) (h : s.step i = some s') : measure s' < measure s := by
  have hclose : ∀ next, (s.closeSession next).waitingAll = s.waitingAll := fun next => by simp [waitingAll]
  have hstage := I.stage
  cases moved_of_step h with
  | drained hpc =>
    have hweight := weight_top hpc
    refine measure_weight rfl rfl rfl ?_
    show 1 < s.weight
    omega
  | doctorEvent next hpc hpos hhead hdoctor =>
    have hleft := left_delevent_doctor { s.closeSession next with E := s.E.delevent } hpos hhead hdoctor rfl
    have hn := s.E.delevent_n
    have hweight : weight { s.closeSession next with E := s.E.delevent } = s.weight :=
      weight_congr (closeSession_pc s next) hleft (closeSession_currentTime s next)
    have hwaiting : waitingAll { s.closeSession next with E := s.E.delevent } = s.waitingAll := hclose next
    rw [measure, measure, hleft, hweight, hwaiting]
    dsimp only
    omega
  | ahead next hpc hpos hhead htype hahead =>
    rw [Stage, hpc] at hstage
    exact measure_ahead I hpc hpos hhead (hahead.resolve_right hstage)
  | refused next k reason ha hkind hreason =>
    have hwaiting : ((s.closeSession next).turnAway next k reason).waitingAll = s.waitingAll := hclose next
    refine measure_arrival ha.pc (by simpa [turnAway] using ha.pc) (left_refused ha k reason) ?_ ?_
    · simp [turnAway, EventQ.delevent_n]
    · rw [hwaiting]
      omega
  | admitted next k d n ha hkind hreason hd =>
    have hwaiting := congrArg Multiset.card (waitingAll_push (s.closeSession next) next k)
    rw [hclose, Multiset.card_cons] at hwaiting
    refine measure_arrival ha.pc (by simpa [admitVisitor] using ha.pc) (left_admitted ha k d n) ?_ (le_of_eq hwaiting)
    simp [EventQ.delevent_n]
  | visited next k l v ha hkind hreason hnow hfree hturn hv =>
    have hwaiting := congrArg Multiset.card
      ((waitingAll_push (s.closeSession next) next k).symm.trans (waitingAll_visit hv))
    rw [hclose, Multiset.card_cons, Multiset.card_cons] at hwaiting
    refine measure_arrival ha.pc (by simpa [finish, visit, admitVisitor] using ha.pc)
      (left_served I F ha hkind hreason hnow hv) ?_ ?_
    · simp [finish, visit, admitVisitor, EventQ.enqueue, EventQ.delevent_n]
    · exact le_of_eq_of_le (Nat.succ.inj hwaiting.symm) (Nat.le_succ _)
  | other next s' ha hkind => exact absurd hkind (I.types next ha.mem_left)
  | others next k v hpc hlt hturn hv => exact measure_visit (by simp [hpc]) hv
  | resume next hpc hnobody =>
    rw [Stage, hpc] at hstage
    exact measure_resume hpc hstage.1
  | pending k v hpc hturn hv => exact measure_visit (by simp [hpc]) hv
  | returned hpc hturn =>
    refine measure_weight rfl rfl rfl ?_
    show 0 < s.weight
    rw [weight, hpc]
    exact Nat.one_pos

theorem joins_le_closeSession (s : Chamber) (next : Event) : s.joins ≤ (s.closeSession next).joins := by
  unfold closeSession joinDoctor checkSession
  split_ifs <;> simp

theorem joins_le (I : SchedInv s) (h : s.step i = some s') : s.joins ≤ s'.joins := by
  cases moved_of_step h with
  | drained | others | pending | returned => exact le_rfl
  | doctorEvent next | ahead next | refused next | admitted next | visited next | resume next =>
    exact s.joins_le_closeSession next
  | other next s' ha hkind => exact absurd hkind (I.types next ha.mem_left)

theorem exists_receive (s : Chamber) (next : Event) : ∃ s', s.receive next 0 = some s' := by
  rw [receive]
  split_ifs
  · exact ⟨_, rfl⟩
  · obtain ⟨s', hs⟩ := s.exists_serve
    exact ⟨s'.finish next, by rw [hs]; rfl⟩
  · exact ⟨_, rfl⟩

/-- The first who waits can always be woken. -/
theorem exists_step (hpc : s.pc ≠ .returned) : ∃ s', s.step 0 = some s' := by
  unfold step
  split
  · rw [iterate]
    split_ifs
    · exact ⟨_, rfl⟩
    · rw [handle]
      split_ifs
      · exact ⟨_, rfl⟩
      · exact ⟨_, rfl⟩
      · rw [arrive]
        split
        · split
          · exact ⟨_, rfl⟩
          · exact exists_receive _ _
        · exact exists_receive _ _
  · rw [serveOthers]
    split_ifs
    · exact s.exists_serve
    · exact ⟨_, rfl⟩
  · rw [servePending]
    split_ifs
    · exact s.exists_serve
    · exact ⟨_, rfl⟩
  · contradiction

/-! ## Runs -/

/-- What holds after `n` steps. -/
structure VisitorsInv (arrivals : List Event) (n : Nat) (s : Chamber) : Prop where
  sched : SchedInv s
  counts : Counts s
  balance : s.left + s.handled = arrivals
  steps : n + s.measure ≤ 6 * arrivals.length + 4
  ended : s.pc = .returned → s.left = 0 ∧ ∀ k, s.waiting k = []

namespace VisitorsInv

variable {n : Nat}

theorem init (htypes : ∀ e ∈ arrivals, kindOf e.type ≠ none) (hdur : ∀ e ∈ arrivals, 0 ≤ e.duration) :
    VisitorsInv arrivals 0 (Chamber.init arrivals) := by
  have hleft : (Chamber.init arrivals).left = arrivals := by
    rw [left, Chamber.init, initEQ_events, Multiset.filter_eq_self]
    rintro e he htype
    exact htypes e he (by rw [htype]; rfl)
  have hpc : (Chamber.init arrivals).pc = .top := rfl
  have hcounts := Counts.init arrivals
  refine ⟨.init htypes hdur, hcounts, ?_, ?_, fun h => absurd h (by rw [hpc]; decide)⟩
  · rw [hleft]
    exact Multiset.add_zero _
  · have hweight := weight_top hpc
    have hn : (Chamber.init arrivals).E.n = arrivals.length := rfl
    have hwaiting : (Chamber.init arrivals).waitingAll = 0 := rfl
    rw [measure, hleft, hn, hwaiting, Multiset.coe_card, Multiset.card_zero]
    omega

theorem step (V : VisitorsInv arrivals n s) (F : s.Fits) (h : s.step i = some s') :
    VisitorsInv arrivals (n + 1) s' := by
  have hlt := measure_lt V.sched F h
  have hsteps := V.steps
  refine ⟨V.sched.step F h, V.counts.step V.sched h, (balance_step V.sched F h).trans V.balance, by omega, ?_⟩
  intro hpc
  have hstage := (V.sched.step F h).stage
  rw [Stage, hpc] at hstage
  refine ⟨hstage, ?_⟩
  cases moved_of_step h with
  | returned _ hturn => exact turn_eq_none.1 hturn
  | drained => cases hpc
  | ahead => cases hpc
  | resume => cases hpc
  | doctorEvent next hpc₀ => simp [hpc₀] at hpc
  | refused next k reason ha => simp [turnAway, ha.pc] at hpc
  | admitted next k d n ha => simp [admitVisitor, ha.pc] at hpc
  | visited next k l v ha => simp [finish, visit, admitVisitor, ha.pc] at hpc
  | other next s' ha hkind => exact absurd hkind (V.sched.types next ha.mem_left)
  | others next k v hpc₀ => simp [visit, hpc₀] at hpc
  | pending k v hpc₀ => simp [visit, hpc₀] at hpc

theorem run (V : VisitorsInv arrivals n s) {as : List Nat} (h : Trans.run Chamber.step s as = some s')
    (hfits : Trans.Along Chamber.step Fits s as) : VisitorsInv arrivals (n + as.length) s' := by
  refine Trans.run_inv_along (I := fun as t => VisitorsInv arrivals (n + as.length) t) V ?_ h hfits
  intro as t a t' V' F ht
  rw [List.length_append, ← Nat.add_assoc]
  exact V'.step F ht

/-- The doctor stays joined, and then nobody comes in any more. -/
theorem run_joined (V : VisitorsInv arrivals n s) {as : List Nat} (h : Trans.run Chamber.step s as = some s')
    (hjoins : 0 < s.joins) : VisitorsInv arrivals (n + as.length) s' ∧ 0 < s'.joins := by
  refine Trans.run_inv (I := fun as t => VisitorsInv arrivals (n + as.length) t ∧ 0 < t.joins) ⟨V, hjoins⟩ ?_ h
  rintro as t a t' ⟨V', hjoins'⟩ ht
  rw [List.length_append, ← Nat.add_assoc]
  have C := V'.counts
  exact ⟨V'.step (fits_of_full C (C.joins hjoins')) ht, hjoins'.trans_le (Chamber.joins_le V'.sched ht)⟩

end VisitorsInv

/-- **No visitor is lost** while all visits fit. In every run the arrivals are those still in the queue, those admitted
and those turned away; at most 25 patients and 3 sales reps are admitted; from the first join of the doctor on nobody
waits; the run ends, and then every arrival has been handled and the admitted have been served, each of them once. -/
theorem no_visitor_lost (arrivals : List Event) (htypes : ∀ e ∈ arrivals, kindOf e.type ≠ none)
    (hdur : ∀ e ∈ arrivals, 0 ≤ e.duration) (as : List Nat) (s : Chamber)
    (h : Trans.run Chamber.step (Chamber.init arrivals) as = some s)
    (hfits : Trans.Along Chamber.step Fits (Chamber.init arrivals) as) :
    s.left + s.handled = arrivals ∧ s.admitted.Nodup ∧
    countKind .patient s.admitted ≤ 25 ∧ countKind .salesrep s.admitted ≤ 3 ∧
    (∀ bs t, Trans.run Chamber.step s bs = some t → 0 < s.joins → ∀ k, t.waiting k = []) ∧
    as.length ≤ 6 * arrivals.length + 4 ∧ (s.pc ≠ .returned → ∃ i t, s.step i = some t) ∧
    (s.pc = .returned → s.handled = arrivals ∧ (s.served.map Visit.visitor).Perm s.admitted) := by
  have V : VisitorsInv arrivals (0 + as.length) s := (VisitorsInv.init htypes hdur).run h hfits
  have C := V.counts
  refine ⟨V.balance, C.nodup, ?_, ?_, fun bs t ht hjoins => ?_, ?_, fun hpc => ⟨0, exists_step hpc⟩, fun hpc => ?_⟩
  · rw [C.patients]
    exact min_le_right _ _
  · rw [C.salesreps]
    exact min_le_right _ _
  · obtain ⟨V', hjoins'⟩ := V.run_joined ht hjoins
    exact V'.counts.full (V'.counts.joins hjoins')
  · have hsteps := V.steps
    omega
  · obtain ⟨hleft, hwaiting⟩ := V.ended hpc
    have hbalance := V.balance
    rw [hleft, Multiset.zero_add] at hbalance
    have hall : s.waitingAll = 0 := by simp [waitingAll, hwaiting]
    have hadmitted := C.admitted
    rw [hall, Multiset.add_zero] at hadmitted
    exact ⟨hbalance, Multiset.coe_eq_coe.1 hadmitted.symm⟩

/-- Two patients and a reporter, and the 11 steps to the end. -/
theorem no_visitor_lost_three : ∃ s : Chamber,
    Trans.run Chamber.step (Chamber.init [⟨'P', -5, 10⟩, ⟨'P', 3, 7⟩, ⟨'R', 4, 6⟩]) (List.replicate 11 0) = some s ∧
      s.pc = .returned ∧ (s.served.map Visit.visitor).Perm s.admitted ∧
      s.admitted = [⟨1, ⟨'P', -5, 10⟩⟩, ⟨2, ⟨'P', 3, 7⟩⟩, ⟨1, ⟨'R', 4, 6⟩⟩] := by
  obtain ⟨s, hs, hfits, hend⟩ := Trans.exists_along_of_run Chamber.step Fits
    (Chamber.init [⟨'P', -5, 10⟩, ⟨'P', 3, 7⟩, ⟨'R', 4, 6⟩]) (List.replicate 11 0)
    (fun s => decide (s.pc = .returned ∧
      s.admitted = [⟨1, ⟨'P', -5, 10⟩⟩, ⟨2, ⟨'P', 3, 7⟩⟩, ⟨1, ⟨'R', 4, 6⟩⟩])) (by decide +kernel)
  obtain ⟨hpc, hadmitted⟩ := of_decide_eq_true hend
  have hlost := no_visitor_lost _ (by decide) (by decide) _ s hs hfits
  exact ⟨s, hs, hpc, (hlost.2.2.2.2.2.2.2 hpc).2, hadmitted⟩

/-- The reporter who comes at `INT_MAX` is admitted twice. -/
theorem reporter_admitted_again : ¬ ∀ (arrivals : List Event), (∀ e ∈ arrivals, kindOf e.type ≠ none) →
    (∀ e ∈ arrivals, 0 ≤ e.duration) → ∀ (as : List Nat) (s : Chamber),
    Trans.run Chamber.step (Chamber.init arrivals) as = some s → s.left + s.handled = arrivals := by
  intro h
  obtain ⟨s, hs, hend⟩ := Trans.exists_of_run Chamber.step (Chamber.init lastMinute) (List.replicate 4 0)
    (fun s => decide (s.admitted.length = 2)) (by decide +kernel)
  have hbalance := congrArg Multiset.card (h lastMinute (by decide) (by decide) _ s hs)
  have htwice := of_decide_eq_true hend
  rw [handled, Multiset.card_add, Multiset.card_add, Multiset.coe_card, Multiset.coe_card, List.length_map, htwice,
    Multiset.coe_card] at hbalance
  have hone : lastMinute.length = 1 := rfl
  omega

end Chamber

end OsLab.A6
