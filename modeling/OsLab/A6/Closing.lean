import OsLab.A6.Protocol

/-!
# The doctor leaves when nobody waits (A6/session.c)

`Tally`: who has been admitted has been called or waits in line, and when the two quotas have been called nobody waits.
It holds of the globals after every statement until main sets `doc_session_done` behind the last visit
(`closing_of_reach`), so main never waits for a doctor that has left (`not_left`).
-/

namespace OsLab.A6

open Function (update)
open Trans (Reach)

namespace Chamber

/-- The quotas have been called. -/
def Filled (s : Chamber) : Prop :=
  s.numServedPatients = maxPatients + s.docSessionDone.toNat ∧
    s.numServedSalesreps = maxSalesreps + s.docSessionDone.toNat

structure Tally (s : Chamber) : Prop where
  patients : s.numServedPatients + (s.waiting .patient).length = min (s.num .patient) maxPatients + s.docSessionDone.toNat
  salesreps : s.numServedSalesreps + (s.waiting .salesrep).length =
    min (s.num .salesrep) maxSalesreps + s.docSessionDone.toNat
  closed : s.docSessionDone = true → s.Filled
  full : s.Filled → ∀ k, s.waiting k = []

/-- `k` can be admitted. -/
def Open (s : Chamber) (k : Kind) : Prop :=
  ¬ s.Filled ∧ (k = .patient → s.num .patient < maxPatients) ∧ (k = .salesrep → s.num .salesrep < maxSalesreps)

def SameTally (s' s : Chamber) : Prop :=
  s'.waiting = s.waiting ∧ s'.num = s.num ∧ s'.numServedPatients = s.numServedPatients ∧
    s'.numServedSalesreps = s.numServedSalesreps ∧ s'.docSessionDone = s.docSessionDone

variable {s s' : Chamber} {k : Kind} {next : Event} {reason : Reason}

namespace SameTally

theorem filled (h : SameTally s' s) : s'.Filled ↔ s.Filled := by
  obtain ⟨-, -, hp, hr, hd⟩ := h
  rw [Filled, Filled, hp, hr, hd]

theorem isOpen (h : SameTally s' s) (k : Kind) : s'.Open k ↔ s.Open k := by
  rw [Open, Open, h.filled, h.2.1]

theorem turn (h : SameTally s' s) : s'.turn = s.turn := by
  unfold Chamber.turn
  rw [h.1]

end SameTally

namespace Tally

theorem init (arrivals : List Event) : Tally (Chamber.init arrivals) :=
  ⟨rfl, rfl, fun h => (by cases h), fun h => (by cases h.1)⟩

theorem congr (T : Tally s) (h : SameTally s' s) : Tally s' := by
  have hfilled := h.filled
  obtain ⟨hw, hn, hp, hr, hd⟩ := h
  refine ⟨by rw [hw, hn, hp, hd]; exact T.patients, by rw [hw, hn, hr, hd]; exact T.salesreps, fun h => ?_, fun h k => ?_⟩
  · exact hfilled.2 (T.closed (hd ▸ h))
  · rw [hw]
    exact T.full (hfilled.1 h) k

/-- The flag is set when the quotas have been called, and then the counters pass their bounds. -/
theorem checkSession (T : Tally s) :
    Tally s.checkSession ∧ (s.checkSession.Filled → s.checkSession.docSessionDone = true) := by
  unfold Chamber.checkSession
  split_ifs with hnow
  · obtain ⟨hdone, hp, hr⟩ := hnow
    have hfilled : s.Filled := by
      rw [Filled, hdone]
      exact ⟨hp, hr⟩
    have hfull := T.full hfilled
    have hpatients := T.patients
    have hsalesreps := T.salesreps
    rw [hfull, hdone] at hpatients hsalesreps
    simp only [List.length_nil, Bool.toNat_false, Nat.add_zero] at hpatients hsalesreps
    refine ⟨⟨?_, ?_, fun _ => ⟨?_, ?_⟩, fun _ => hfull⟩, fun _ => rfl⟩
    · simp only [hfull, List.length_nil, Bool.toNat_true, hpatients, Nat.add_zero]
    · simp only [hfull, List.length_nil, Bool.toNat_true, hsalesreps, Nat.add_zero]
    · simp only [hp, Bool.toNat_true]
    · simp only [hr, Bool.toNat_true]
  · refine ⟨T, fun hfilled => ?_⟩
    by_contra hdone
    rw [Bool.not_eq_true] at hdone
    rw [Filled, hdone] at hfilled
    exact hnow ⟨hdone, hfilled⟩

theorem turnAway (T : Tally s) (h : s.refusal next k = some reason) : Tally (s.turnAway next k reason) := by
  refine ⟨T.patients.trans ?_, T.salesreps.trans ?_, T.closed, T.full⟩
  · cases k <;> simp only [Chamber.turnAway, Function.update_self, ne_eq, reduceCtorEq, not_false_eq_true,
      Function.update_of_ne]
    rw [refusal, Option.ite_none_right_eq_some] at h
    omega
  · cases k <;> simp only [Chamber.turnAway, Function.update_self, ne_eq, reduceCtorEq, not_false_eq_true,
      Function.update_of_ne]
    rw [refusal, Option.ite_none_right_eq_some] at h
    omega

/-- Who is not refused comes before the quotas have been called. -/
theorem isOpen (T : Tally s) (hdone : s.Filled → s.docSessionDone = true) (h : s.refusal next k = none) : s.Open k := by
  have hpatients := T.patients
  have hsalesreps := T.salesreps
  have hnot : ¬ s.Filled := by
    intro hfilled
    have hwaiting := T.full hfilled
    have hflag := hdone hfilled
    obtain ⟨hp, hr⟩ := hfilled
    rw [hwaiting, hp, List.length_nil] at hpatients
    rw [hwaiting, hr, List.length_nil] at hsalesreps
    cases k with
    | reporter =>
      rw [hflag] at hp hr
      have hover : s.isOver := ⟨by rw [hp]; decide, by rw [hr]; decide⟩
      rw [refusal, if_pos hover] at h
      cases h
    | patient =>
      rw [refusal, if_pos (by omega)] at h
      cases h
    | salesrep =>
      rw [refusal, if_pos (by omega)] at h
      cases h
  refine ⟨hnot, ?_, ?_⟩
  · rintro rfl
    rw [refusal] at h
    split_ifs at h with hquota
    exact Nat.lt_of_not_le hquota
  · rintro rfl
    rw [refusal] at h
    split_ifs at h with hquota
    exact Nat.lt_of_not_le hquota

theorem admitVisitor (T : Tally s) (h : s.Open k) : Tally (s.admitVisitor next k) := by
  obtain ⟨hnot, hp, hr⟩ := h
  have hpatients := T.patients
  have hsalesreps := T.salesreps
  refine ⟨?_, ?_, T.closed, fun hfilled => absurd hfilled hnot⟩
  · cases k with
    | patient =>
      have hlt := hp rfl
      simp only [Chamber.admitVisitor, Function.update_self, List.length_append, List.length_singleton]
      omega
    | reporter | salesrep => simpa [Chamber.admitVisitor] using hpatients
  · cases k with
    | salesrep =>
      have hlt := hr rfl
      simp only [Chamber.admitVisitor, Function.update_self, List.length_append, List.length_singleton]
      omega
    | reporter | patient => simpa [Chamber.admitVisitor] using hsalesreps

/-- Reporters are called first, so with the last patient and the last sales rep nobody waits any more. -/
theorem callNext (T : Tally s) (h : s.turn = some k) : Tally (s.callNext k) := by
  obtain ⟨hwaits, hreporter, hpatient⟩ := turn_eq_some h
  have hpos := List.length_pos_of_ne_nil hwaits
  have hpatients := T.patients
  have hsalesreps := T.salesreps
  have hnot : ¬ s.Filled := fun hfilled => hwaits (T.full hfilled k)
  refine ⟨?_, ?_, fun hdone => absurd (T.closed hdone) hnot, fun hfilled l => ?_⟩
  · cases k <;> simp only [Chamber.callNext, Function.update_self, ne_eq, reduceCtorEq, not_false_eq_true,
      Function.update_of_ne, if_true, if_false, List.length_tail] <;> omega
  · cases k <;> simp only [Chamber.callNext, Function.update_self, ne_eq, reduceCtorEq, not_false_eq_true,
      Function.update_of_ne, if_true, if_false, List.length_tail] <;> omega
  · obtain ⟨hp, hr⟩ := hfilled
    have hreporter' : k ≠ .reporter := by
      rintro rfl
      exact hnot ⟨hp, hr⟩
    have hnobody := hreporter hreporter'
    cases k with
    | reporter => exact absurd rfl hreporter'
    | patient =>
      simp only [Chamber.callNext, if_true, reduceCtorEq, if_false] at hp hr
      cases l with
      | reporter => simpa [Chamber.callNext] using hnobody
      | patient =>
        refine List.eq_nil_of_length_eq_zero ?_
        simp only [Chamber.callNext, Function.update_self, List.length_tail]
        omega
      | salesrep =>
        refine List.eq_nil_of_length_eq_zero ?_
        simp only [Chamber.callNext, ne_eq, reduceCtorEq, not_false_eq_true, Function.update_of_ne]
        omega
    | salesrep =>
      simp only [Chamber.callNext, if_true, reduceCtorEq, if_false] at hp hr
      cases l with
      | reporter => simpa [Chamber.callNext] using hnobody
      | patient =>
        refine List.eq_nil_of_length_eq_zero ?_
        simp only [Chamber.callNext, ne_eq, reduceCtorEq, not_false_eq_true, Function.update_of_ne]
        omega
      | salesrep =>
        refine List.eq_nil_of_length_eq_zero ?_
        simp only [Chamber.callNext, Function.update_self, List.length_tail]
        omega

end Tally

end Chamber

/-! ## Where main stands -/

namespace MainPc

/-- Behind the `doc_session_done = 1` that follows the last visit. -/
def ending : MainPc → Bool
  | .wake .signal (.leave .final) | .wake .unlock (.leave .final) | .join .final | .returned => true
  | _ => false

/-- The class of the visitor that main is about to count. -/
def admits : MainPc → Option Kind
  | .createThread k | .asst _ (.visitor k) | .admitted k => some k
  | _ => none

/-- `doc_session_done` has been looked at since the last visit. -/
def checked : MainPc → Bool
  | .dispatch | .wake _ (.leave .top) | .join .top => true
  | _ => false

/-- The class that main is about to call. -/
def calling : MainPc → Option Kind
  | .call .lock k _ | .call .set k _ | .call .count k _ => some k
  | _ => none

theorem checked_wake (p q : WakePc) (o : Wake) : (MainPc.wake p o).checked = (MainPc.wake q o).checked := by
  cases o with
  | leave l => cases l <;> rfl
  | serve v => rfl

theorem wakeAsst_closing (m : MainPc) :
    m.wakeAsst.ending = m.ending ∧ m.wakeAsst.admits = m.admits ∧ m.wakeAsst.checked = m.checked ∧
      m.wakeAsst.calling = m.calling := by
  cases m with
  | asst p a => cases p <;> cases a <;> exact ⟨rfl, rfl, rfl, rfl⟩
  | _ => exact ⟨rfl, rfl, rfl, rfl⟩

theorem ending_spec {m : MainPc} (h : m.ending = true) : m.admits = none ∧ m.checked = false ∧ m.calling = none := by
  cases m with
  | wake p o => cases p <;> cases o <;> first | cases h | (rename_i l; cases l <;> first | exact ⟨rfl, rfl, rfl⟩ | cases h)
  | join l => cases l <;> first | exact ⟨rfl, rfl, rfl⟩ | cases h
  | returned => exact ⟨rfl, rfl, rfl⟩
  | _ => cases h

end MainPc

namespace Clinic

structure Closing (s : Clinic) : Prop where
  tally : s.main.ending = false → s.chamber.Tally
  admits : ∀ k, s.main.admits = some k → s.chamber.Open k
  checked : s.main.checked = true → s.chamber.Filled → s.chamber.docSessionDone = true
  calling : ∀ k, s.main.calling = some k → s.chamber.turn = some k
  left : s.doctor = .left → s.chamber.docSessionDone = true

variable {s s' : Clinic} {i n : Nat} {k : Kind}

namespace Closing

/-- The globals are not touched, and main does not come to a new place. -/
theorem congr (C : s.Closing) (hsame : s'.chamber.SameTally s.chamber)
    (hleft : s'.doctor = .left → s.doctor = .left ∨ s.chamber.docSessionDone = true)
    (hend : s'.main.ending = false → s.main.ending = false)
    (hadmits : s'.main.admits = none ∨ s'.main.admits = s.main.admits)
    (hchecked : s'.main.checked = true → s.main.checked = true)
    (hcalling : s'.main.calling = none ∨ s'.main.calling = s.main.calling) : s'.Closing := by
  refine ⟨fun h => (C.tally (hend h)).congr hsame, fun k hk => ?_, fun h hf => ?_, fun k hk => ?_, fun h => ?_⟩
  · rw [hsame.isOpen]
    rcases hadmits with h | h <;> rw [h] at hk
    · cases hk
    · exact C.admits k hk
  · rw [hsame.2.2.2.2]
    exact C.checked (hchecked h) (hsame.filled.1 hf)
  · rw [hsame.turn]
    rcases hcalling with h | h <;> rw [h] at hk
    · cases hk
    · exact C.calling k hk
  · rw [hsame.2.2.2.2]
    exact (hleft h).elim C.left id

/-- The doctor or a visitor goes on. -/
theorem ofOther (C : s.Closing) (hm : s'.main = s.main ∨ s'.main = s.main.wakeAsst)
    (hsame : s'.chamber.SameTally s.chamber)
    (hleft : s'.doctor = .left → s.doctor = .left ∨ s.chamber.docSessionDone = true) : s'.Closing := by
  obtain ⟨h1, h2, h3, h4⟩ := s.main.wakeAsst_closing
  rcases hm with hm | hm
  · exact C.congr hsame hleft (by rw [hm]; exact id) (.inr (by rw [hm])) (by rw [hm]; exact id) (.inr (by rw [hm]))
  · exact C.congr hsame hleft (by rw [hm, h1]; exact id) (.inr (by rw [hm, h2])) (by rw [hm, h3]; exact id)
      (.inr (by rw [hm, h4]))

/-- main leaves for good. -/
theorem ofEnding (hend : s'.main.ending = true) (hleft : s'.doctor = .left → s'.chamber.docSessionDone = true) :
    s'.Closing := by
  obtain ⟨hadmits, hchecked, hcalling⟩ := MainPc.ending_spec hend
  refine ⟨fun h => ?_, fun k hk => ?_, fun h => ?_, fun k hk => ?_, hleft⟩
  · rw [hend] at h
    cases h
  · rw [hadmits] at hk
    cases hk
  · rw [hchecked] at h
    cases h
  · rw [hcalling] at hk
    cases hk

/-- main has changed the globals and is between two handshakes. -/
theorem ofTally (T : s'.chamber.Tally) (hadmits : s'.main.admits = none) (hcalling : s'.main.calling = none)
    (hchecked : s'.main.checked = true → s'.chamber.Filled → s'.chamber.docSessionDone = true)
    (hleft : s'.doctor = .left → s'.chamber.docSessionDone = true) : s'.Closing := by
  refine ⟨fun _ => T, fun k hk => ?_, hchecked, fun k hk => ?_, hleft⟩
  · rw [hadmits] at hk
    cases hk
  · rw [hcalling] at hk
    cases hk

theorem stepDoctor (C : s.Closing) (h : s.stepDoctor = some s') : s'.Closing := by
  cases hpc : s.doctor <;> simp only [Clinic.stepDoctor, hpc] at h
  case unborn | blocked | left => cases h
  case lock | relock =>
    obtain ⟨m, -, rfl⟩ := Option.map_eq_some_iff.1 h
    exact C.ofOther (.inl rfl) ⟨rfl, rfl, rfl, rfl, rfl⟩ (by simp)
  case test =>
    cases h
    refine C.ofOther (.inl rfl) ⟨rfl, rfl, rfl, rfl, rfl⟩ ?_
    dsimp only
    split_ifs <;> simp
  case check =>
    by_cases hover : s.chamber.docSessionDone = true
    · rw [if_pos hover] at h
      cases h
      exact C.ofOther (.inl rfl) ⟨rfl, rfl, rfl, rfl, rfl⟩ fun _ => .inr hover
    · rw [if_neg hover] at h
      cases h
      exact C.ofOther (.inl rfl) ⟨rfl, rfl, rfl, rfl, rfl⟩ (by simp)
  case signal =>
    cases h
    exact C.ofOther (.inr (signalAsst_main s)) ⟨rfl, rfl, rfl, rfl, rfl⟩ (by simp)
  case enter =>
    obtain ⟨b, -, rfl⟩ := Option.map_eq_some_iff.1 h
    exact C.ofOther (.inl rfl) ⟨rfl, rfl, rfl, rfl, rfl⟩ (by simp)
  case barrier =>
    obtain ⟨⟨s₁, done⟩, hb, rfl⟩ := Option.map_eq_some_iff.1 h
    obtain ⟨b, -, he⟩ := Option.map_eq_some_iff.1 hb
    cases he
    refine C.ofOther (.inl rfl) ⟨rfl, rfl, rfl, rfl, rfl⟩ ?_
    dsimp only
    split_ifs <;> simp
  all_goals
    cases h
    exact C.ofOther (.inl rfl) ⟨rfl, rfl, rfl, rfl, rfl⟩ (by simp)

theorem stepVisitor (C : s.Closing) (h : s.stepVisitor i = some s') : s'.Closing := by
  obtain ⟨u, hu, h⟩ := Option.bind_eq_some_iff.1 h
  cases hpc : u.pc <;> simp only [execVisitor, hpc] at h
  case blocked | left => cases h
  case lock | relock | enter =>
    obtain ⟨m, -, rfl⟩ := Option.map_eq_some_iff.1 h
    exact C.ofOther (.inl rfl) ⟨rfl, rfl, rfl, rfl, rfl⟩ .inl
  case signal =>
    cases h
    exact C.ofOther (.inr (signalAsst_main s)) ⟨rfl, rfl, rfl, rfl, rfl⟩ .inl
  case barrier =>
    obtain ⟨⟨s₁, done⟩, hb, rfl⟩ := Option.map_eq_some_iff.1 h
    obtain ⟨b, -, he⟩ := Option.map_eq_some_iff.1 hb
    cases he
    exact C.ofOther (.inl rfl) ⟨rfl, rfl, rfl, rfl, rfl⟩ .inl
  all_goals
    cases h
    exact C.ofOther (.inl rfl) ⟨rfl, rfl, rfl, rfl, rfl⟩ .inl

/-! ### main -/

/-- main goes on and leaves the tally alone. -/
theorem ofMain {m : MainPc} (C : s.Closing) (hm : s.main = m) (hsame : s'.chamber.SameTally s.chamber)
    (hleft : s'.doctor = .left → s.doctor = .left) (hend : m.ending = false)
    (hadmits : s'.main.admits = none ∨ s'.main.admits = m.admits)
    (hchecked : s'.main.checked = true → m.checked = true)
    (hcalling : s'.main.calling = none ∨ s'.main.calling = m.calling) : s'.Closing := by
  subst hm
  exact C.congr hsame (fun h => .inl (hleft h)) (fun _ => hend) hadmits hchecked hcalling

theorem left_checkSession (C : s.Closing) (h : s.doctor = .left) : s.chamber.checkSession.docSessionDone = true := by
  have hdone := C.left h
  unfold Chamber.checkSession
  split_ifs
  · rfl
  · exact hdone

theorem stepWake {p : WakePc} {o : Wake} (C : s.Closing) (hm : s.main = .wake p o) (h : s.wakeDoctor p o = some s') :
    s'.Closing := by
  cases p with
  | lock =>
    obtain ⟨m, -, rfl⟩ := Option.map_eq_some_iff.1 h
    exact C.ofMain hm ⟨rfl, rfl, rfl, rfl, rfl⟩ id rfl (.inl rfl) (MainPc.checked_wake _ _ _).trans (.inl rfl)
  | set =>
    cases h
    by_cases ho : o = .leave .final
    · subst ho
      exact ofEnding rfl fun _ => rfl
    · simp only [if_neg ho]
      exact C.ofMain hm ⟨rfl, rfl, rfl, rfl, rfl⟩ id rfl (.inl rfl) (MainPc.checked_wake _ _ _).trans (.inl rfl)
  | signal =>
    cases h
    have hleft : (if s.doctor = .blocked then DoctorPc.relock else s.doctor) = .left → s.doctor = .left := by
      split_ifs <;> simp
    by_cases ho : o = .leave .final
    · subst ho
      exact ofEnding rfl fun h => C.left (hleft h)
    · refine C.ofMain hm ⟨rfl, rfl, rfl, rfl, rfl⟩ hleft ?_ (.inl rfl) (MainPc.checked_wake _ _ _).trans (.inl rfl)
      rcases o with l | v
      · cases l <;> first | rfl | exact absurd rfl ho
      · rfl
  | unlock =>
    cases h
    by_cases ho : o = .leave .final
    · subst ho
      exact ofEnding rfl C.left
    · rcases o with l | v
      · cases l with
        | final => exact absurd rfl ho
        | top | others => exact C.ofMain hm ⟨rfl, rfl, rfl, rfl, rfl⟩ id rfl (.inl rfl) id (.inl rfl)
      · exact C.ofMain hm ⟨rfl, rfl, rfl, rfl, rfl⟩ id rfl (.inl rfl) (fun h => by cases h) (.inl rfl)

theorem stepAsst {p : AsstPc} {a : Awaited} (C : s.Closing) (hm : s.main = .asst p a) (h : s.waitAsst p a = some s') :
    s'.Closing := by
  cases p with
  | lock | relock =>
    obtain ⟨m, -, rfl⟩ := Option.map_eq_some_iff.1 h
    exact C.ofMain hm ⟨rfl, rfl, rfl, rfl, rfl⟩ id rfl (.inr (by cases a <;> rfl)) (fun h => by cases h) (.inl rfl)
  | blocked => cases h
  | test | wait | clear =>
    cases h
    exact C.ofMain hm ⟨rfl, rfl, rfl, rfl, rfl⟩ id rfl (.inr (by cases a <;> rfl)) (fun h => by cases h) (.inl rfl)
  | unlock =>
    cases h
    cases a <;> exact C.ofMain hm ⟨rfl, rfl, rfl, rfl, rfl⟩ id rfl (.inr rfl) (fun h => by cases h) (.inl rfl)

theorem stepDispatch (C : s.Closing) (hm : s.main = .dispatch) : s.dispatch.Closing := by
  have T := C.tally (by rw [hm]; rfl)
  simp only [Clinic.dispatch]
  split_ifs
  · exact C.ofMain hm ⟨rfl, rfl, rfl, rfl, rfl⟩ id rfl (.inl rfl) (fun h => by cases h) (.inl rfl)
  · exact C.ofMain hm ⟨rfl, rfl, rfl, rfl, rfl⟩ id rfl (.inl rfl) (fun h => by cases h) (.inl rfl)
  · split
    case h_1 k _ =>
      split
      case h_1 reason hreason => exact ofTally (T.turnAway hreason) rfl rfl (fun h => by cases h) C.left
      case h_2 hnone =>
        have hopen := T.isOpen (C.checked (by rw [hm]; rfl)) hnone
        refine ⟨fun _ => T, fun l hl => ?_, (fun h => by cases h), (fun _ h => by cases h), C.left⟩
        cases hl
        exact hopen
    case h_2 => exact C.ofMain hm ⟨rfl, rfl, rfl, rfl, rfl⟩ id rfl (.inl rfl) (fun h => by cases h) (.inl rfl)

theorem stepMain (C : s.Closing) (h : s.stepMain n = some s') : s'.Closing := by
  cases hm : s.main <;> simp only [Clinic.stepMain, hm] at h
  case returned => cases h
  case wake p o => exact C.stepWake hm h
  case asst p a => exact C.stepAsst hm h
  case dispatch =>
    cases h
    exact C.stepDispatch hm
  case createDoctor =>
    cases h
    exact C.ofMain hm ⟨rfl, rfl, rfl, rfl, rfl⟩ (by simp) rfl (.inl rfl) (fun h => by cases h) (.inl rfl)
  case loop =>
    cases h
    obtain ⟨T, hdone⟩ := (C.tally (by rw [hm]; rfl)).checkSession
    simp only [Clinic.loop]
    split_ifs
    · exact C.ofMain hm ⟨rfl, rfl, rfl, rfl, rfl⟩ id rfl (.inl rfl) (fun h => by cases h) (.inl rfl)
    · exact ofTally T rfl rfl (fun _ => hdone) C.left_checkSession
    · exact ofTally T rfl rfl (fun _ => hdone) C.left_checkSession
  case others =>
    cases h
    obtain ⟨T, hdone⟩ := (C.tally (by rw [hm]; rfl)).checkSession
    simp only [Clinic.others]
    split_ifs
    · exact C.ofMain hm ⟨rfl, rfl, rfl, rfl, rfl⟩ id rfl (.inl rfl) (fun h => by cases h) (.inl rfl)
    · exact ofTally T rfl rfl (fun h => by cases h) C.left_checkSession
    · exact ofTally T rfl rfl (fun h => by cases h) C.left_checkSession
  case join l =>
    split_ifs at h with hleft
    cases h
    cases l with
    | final => exact ofEnding rfl C.left
    | top => exact C.ofMain hm ⟨rfl, rfl, rfl, rfl, rfl⟩ id rfl (.inl rfl) (fun _ => rfl) (.inl rfl)
    | others => exact C.ofMain hm ⟨rfl, rfl, rfl, rfl, rfl⟩ id rfl (.inl rfl) (fun h => by cases h) (.inl rfl)
  case createThread k =>
    cases h
    exact C.ofMain hm ⟨rfl, rfl, rfl, rfl, rfl⟩ id rfl (.inr rfl) (fun h => by cases h) (.inl rfl)
  case admitted k =>
    cases h
    have T := C.tally (by rw [hm]; rfl)
    exact ofTally (T.admitVisitor (C.admits k (by rw [hm]; rfl))) rfl rfl (fun h => by cases h) C.left
  case receive =>
    cases h
    simp only [Clinic.receive]
    split_ifs <;>
      exact C.ofMain hm ⟨rfl, rfl, rfl, rfl, rfl⟩ id rfl (.inl rfl) (fun h => by cases h) (.inl rfl)
  case turn v =>
    cases h
    split
    case h_1 k hk =>
      refine ⟨fun _ => C.tally (by rw [hm]; rfl), (fun _ h => by cases h), (fun h => by cases h), fun l hl => ?_, C.left⟩
      cases hl
      exact hk
    case h_2 =>
      cases v <;> exact C.ofMain hm ⟨rfl, rfl, rfl, rfl, rfl⟩ id rfl (.inl rfl) (fun h => by cases h) (.inl rfl)
  case call p k v =>
    cases p with
    | lock =>
      obtain ⟨m, -, rfl⟩ := Option.map_eq_some_iff.1 h
      exact C.ofMain hm ⟨rfl, rfl, rfl, rfl, rfl⟩ id rfl (.inl rfl) (fun h => by cases h) (.inr rfl)
    | set =>
      cases h
      exact C.ofMain hm ⟨rfl, rfl, rfl, rfl, rfl⟩ id rfl (.inl rfl) (fun h => by cases h) (.inr rfl)
    | count =>
      cases h
      have T := C.tally (by rw [hm]; rfl)
      exact ofTally (T.callNext (C.calling k (by rw [hm]; rfl))) rfl rfl (fun h => by cases h) C.left
    | signal =>
      simp only [callVisitor] at h
      split at h <;> split_ifs at h <;> cases h <;>
        exact C.ofMain hm ⟨rfl, rfl, rfl, rfl, rfl⟩ id rfl (.inl rfl) (fun h => by cases h) (.inl rfl)
    | unlock =>
      cases h
      exact C.ofMain hm ⟨rfl, rfl, rfl, rfl, rfl⟩ id rfl (.inl rfl) (fun h => by cases h) (.inl rfl)
  case enter v =>
    obtain ⟨b, -, rfl⟩ := Option.map_eq_some_iff.1 h
    exact C.ofMain hm ⟨rfl, rfl, rfl, rfl, rfl⟩ id rfl (.inl rfl) (fun h => by cases h) (.inl rfl)
  case barrier v =>
    obtain ⟨⟨s₁, done⟩, hb, rfl⟩ := Option.map_eq_some_iff.1 h
    obtain ⟨b, -, he⟩ := Option.map_eq_some_iff.1 hb
    cases he
    by_cases hnone : b.pc .main = none
    · simp only [hnone, decide_true, if_true]
      exact C.ofMain hm ⟨rfl, rfl, rfl, rfl, rfl⟩ id rfl (.inl rfl) (fun h => by cases h) (.inl rfl)
    · simp only [hnone, decide_false, Bool.false_eq_true, if_false]
      exact C.ofMain hm ⟨rfl, rfl, rfl, rfl, rfl⟩ id rfl (.inl rfl) (fun h => by cases h) (.inl rfl)
  case addevent v =>
    cases h
    cases v <;> exact C.ofMain hm ⟨rfl, rfl, rfl, rfl, rfl⟩ id rfl (.inl rfl) (fun h => by cases h) (.inl rfl)
  case pending =>
    cases h
    split_ifs <;> exact C.ofMain hm ⟨rfl, rfl, rfl, rfl, rfl⟩ id rfl (.inl rfl) (fun h => by cases h) (.inl rfl)
  case finish | resume =>
    cases h
    exact C.ofMain hm ⟨rfl, rfl, rfl, rfl, rfl⟩ id rfl (.inl rfl) (fun h => by cases h) (.inl rfl)

theorem step {a : SessionStep} (C : s.Closing) (h : s.step a = some s') : s'.Closing := by
  cases a with
  | main n => exact C.stepMain h
  | doctor => exact C.stepDoctor h
  | visitor i => exact C.stepVisitor h

theorem init (arrivals : List Event) : (Clinic.init arrivals).Closing :=
  ofTally (.init arrivals) rfl rfl (fun h => by cases h) fun h => by cases h

end Closing

theorem closing_of_reach {arrivals : List Event} (h : Reach step (.init arrivals) s) : s.Closing :=
  h.inv (Closing.init arrivals) fun _ _ _ _ C _ hs => C.step hs

/-- main does not wait for a doctor that has left. -/
theorem not_left {v : Serve} (P : s.Protocol) (C : s.Closing) (hm : s.main = .asst .blocked (.doctor v)) :
    s.doctor ≠ .left := by
  intro hleft
  have T := C.tally (by rw [hm]; rfl)
  refine P.rousing.wanted (by rw [hm]; rfl) (Chamber.turn_eq_none.2 ?_)
  exact T.full (T.closed (C.left hleft))

end Clinic

end OsLab.A6
