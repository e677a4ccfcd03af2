import OsLab.A6.Arrays
import OsLab.A6.Arrival
import OsLab.A6.Clock
import OsLab.A6.Quotas

/-!
# A day (A6/arrival.c, A6/session.c)

| here | there |
| --- | --- |
| `rand k`                | what the call of `rand()` returns that `k` calls have been made before |
| `Arrivals.visitor`      | the body of one of the loops (arrival.c:16, :20, :24) |
| `Arrivals.patients`, `.reports`, `.salesReps` | :15-16, :19-20, :23-24 |
| `Arrivals.main`         | what is in `arrival.txt` behind `fclose` |
| `Chamber.shown`         | the times that session.c prints |

C leaves open which of the two numbers of a line is drawn first; the calls are numbered as they stand there. The file
has more patients and sales reps than there are places, the first visitor comes at 8:30 and the last one before 2:45, and
the visits for which there are places take less than eight hours, so the day ends before midnight.
-/

namespace OsLab.A6

/-! ## arrival.c -/

/-- The lines that have been printed, and how often `rand` has been called. -/
structure Arrivals where
  printed : List Event
  calls : Nat
deriving DecidableEq, Repr

namespace Arrivals

section
variable (rand : Nat → Nat)

/-- `rand() % span - early`, `least + rand() % spread`. -/
def visitor (type : Char) (span : Nat) (early least : Int) (spread : Nat) (s : Arrivals) : Arrivals where
  printed := s.printed ++ [⟨type, (rand s.calls % span : Nat) - early, least + (rand (s.calls + 1) % spread : Nat)⟩]
  calls := s.calls + 2

/-- `n = least + rand() % spread`, and a loop that is run `n` times. -/
def loop (least spread : Nat) (body : Arrivals → Arrivals) (s : Arrivals) : Arrivals :=
  body^[least + rand s.calls % spread] { s with calls := s.calls + 1 }

def patients : Arrivals → Arrivals := loop rand 25 16 (visitor rand 'P' 345 15 5 11)

def reports : Arrivals → Arrivals := loop rand 5 11 (visitor rand 'R' 330 0 1 2)

def salesReps : Arrivals → Arrivals := loop rand 3 5 (visitor rand 'S' 360 30 5 6)

/-- The lines of the file, but for the last one. -/
def drawn : List Event := (salesReps rand (reports rand (patients rand ⟨[], 0⟩))).printed

def main : List Char := written (drawn rand)

end

/-- What a loop prints. -/
structure Printed (type : Char) (span : Nat) (early least : Int) (spread : Nat) (e : Event) : Prop where
  type : e.type = type
  time : -early ≤ e.time ∧ e.time < span - early
  duration : least ≤ e.duration ∧ e.duration < least + spread

section
variable (rand : Nat → Nat) (type : Char) {span spread : Nat} (early least : Int)

theorem printed_visitor (hspan : 0 < span) (hspread : 0 < spread) (n : Nat) (s : Arrivals) :
    ∃ es, ((visitor rand type span early least spread)^[n] s).printed = s.printed ++ es ∧ es.length = n ∧
      ∀ e ∈ es, Printed type span early least spread e := by
  induction n with
  | zero => exact ⟨[], (List.append_nil _).symm, rfl, fun e he => absurd he List.not_mem_nil⟩
  | succ n ih =>
    obtain ⟨es, hprinted, hlength, hes⟩ := ih
    rw [Function.iterate_succ_apply']
    generalize (visitor rand type span early least spread)^[n] s = t at hprinted
    have htime := Nat.mod_lt (rand t.calls) hspan
    have hduration := Nat.mod_lt (rand (t.calls + 1)) hspread
    refine ⟨es ++ [⟨type, (rand t.calls % span : Nat) - early, least + (rand (t.calls + 1) % spread : Nat)⟩], ?_, ?_, ?_⟩
    · rw [visitor, hprinted, List.append_assoc]
    · rw [List.length_append, List.length_singleton, hlength]
    · intro e he
      rcases List.mem_append.1 he with he | he
      · exact hes e he
      · rw [List.mem_singleton.1 he]
        refine ⟨rfl, ?_, ?_⟩
        · dsimp only
          omega
        · dsimp only
          omega

theorem printed_loop (hspan : 0 < span) (hspread : 0 < spread) (fewest : Nat) {more : Nat} (hmore : 0 < more)
    (s : Arrivals) :
    ∃ es, (loop rand fewest more (visitor rand type span early least spread) s).printed = s.printed ++ es ∧
      (fewest ≤ es.length ∧ es.length < fewest + more) ∧ ∀ e ∈ es, Printed type span early least spread e := by
  obtain ⟨es, hprinted, hlength, hes⟩ := printed_visitor rand type early least hspan hspread
    (fewest + rand s.calls % more) { s with calls := s.calls + 1 }
  have hlt := Nat.mod_lt (rand s.calls) hmore
  exact ⟨es, hprinted, by omega, hes⟩

end

end Arrivals

/-- The longest visit of a class. -/
def Kind.longest : Kind → Int
  | .reporter => 2
  | .patient => 15
  | .salesrep => 10

namespace Arrivals

/-- What is known of a file without knowing what has been drawn. -/
structure Plausible (arrivals : List Event) : Prop where
  length : arrivals.length ≤ 62
  types : ∀ e ∈ arrivals, kindOf e.type ≠ none
  times : ∀ e ∈ arrivals, -30 ≤ e.time ∧ e.time ≤ 344
  durations : ∀ e ∈ arrivals, ∀ k, kindOf e.type = some k → 0 ≤ e.duration ∧ e.duration ≤ k.longest
  patients : 25 ≤ arrivals.countP fun e => kindOf e.type = some .patient
  salesreps : 3 ≤ arrivals.countP fun e => kindOf e.type = some .salesrep
  reporters : (arrivals.countP fun e => kindOf e.type = some .reporter) ≤ 15

/-- The visits of a file take less than 16 hours. -/
theorem Plausible.ample {arrivals : List Event} (P : Plausible arrivals) : Chamber.Ample arrivals 344 where
  nonneg := by decide
  times e he := (P.times e he).2
  visits := by
    have hlong : ∀ d ∈ arrivals.map Event.duration, d ≤ 15 := by
      intro d hd
      obtain ⟨e, he, rfl⟩ := List.mem_map.1 hd
      obtain ⟨k, hk⟩ := Option.ne_none_iff_exists'.1 (P.types e he)
      have hle := (P.durations e he k hk).2
      cases k <;> rw [Kind.longest] at hle <;> omega
    have hsum := List.sum_le_card_nsmul _ _ hlong
    have hlength := P.length
    rw [List.length_map, nsmul_eq_mul] at hsum
    rw [intMax]
    omega

theorem countP_printed {type : Char} {span spread : Nat} {early least : Int} {es : List Event} {k : Kind}
    (hes : ∀ e ∈ es, Printed type span early least spread e) (htype : kindOf type = some k) (l : Kind) :
    (es.countP fun e => kindOf e.type = some l) = if k = l then es.length else 0 := by
  split_ifs with hkl
  · rw [List.countP_eq_length]
    intro e he
    simp [(hes e he).type, htype, hkl]
  · rw [List.countP_eq_zero]
    intro e he
    simp [(hes e he).type, htype, hkl]

/-- **Whatever `rand` returns the file is plausible.** -/
theorem plausible_drawn (rand : Nat → Nat) : Plausible (drawn rand) := by
  obtain ⟨ps, hprinted, hps, hpatients⟩ : ∃ ps, (patients rand ⟨[], 0⟩).printed = [] ++ ps ∧
      (25 ≤ ps.length ∧ ps.length < 25 + 16) ∧ ∀ e ∈ ps, Printed 'P' 345 15 5 11 e :=
    printed_loop rand 'P' 15 5 (by decide) (by decide) 25 (by decide) _
  obtain ⟨rs, hprinted', hrs, hreports⟩ : ∃ rs, (reports rand (patients rand ⟨[], 0⟩)).printed =
      (patients rand ⟨[], 0⟩).printed ++ rs ∧ (5 ≤ rs.length ∧ rs.length < 5 + 11) ∧
      ∀ e ∈ rs, Printed 'R' 330 0 1 2 e :=
    printed_loop rand 'R' 0 1 (by decide) (by decide) 5 (by decide) _
  obtain ⟨ss, hprinted'', hss, hsales⟩ : ∃ ss, drawn rand = (reports rand (patients rand ⟨[], 0⟩)).printed ++ ss ∧
      (3 ≤ ss.length ∧ ss.length < 3 + 5) ∧ ∀ e ∈ ss, Printed 'S' 360 30 5 6 e :=
    printed_loop rand 'S' 30 5 (by decide) (by decide) 3 (by decide) _
  have hdrawn : drawn rand = ps ++ rs ++ ss := by
    rw [hprinted'', hprinted', hprinted, List.nil_append]
  have hcount : ∀ l, ((ps ++ rs ++ ss).countP fun e => kindOf e.type = some l) =
      (if Kind.patient = l then ps.length else 0) + (if Kind.reporter = l then rs.length else 0) +
        if Kind.salesrep = l then ss.length else 0 := by
    intro l
    rw [List.countP_append, List.countP_append, countP_printed hpatients rfl, countP_printed hreports rfl,
      countP_printed hsales rfl]
  have hall : ∀ e ∈ drawn rand, Printed 'P' 345 15 5 11 e ∨ Printed 'R' 330 0 1 2 e ∨ Printed 'S' 360 30 5 6 e := by
    intro e he
    rw [hdrawn, List.mem_append, List.mem_append] at he
    rcases he with (he | he) | he
    · exact .inl (hpatients e he)
    · exact .inr (.inl (hreports e he))
    · exact .inr (.inr (hsales e he))
  refine ⟨?_, fun e he => ?_, fun e he => ?_, fun e he k hk => ?_, ?_, ?_, ?_⟩
  · rw [hdrawn, List.length_append, List.length_append]
    omega
  · rcases hall e he with h | h | h <;> rw [h.type] <;> decide
  · rcases hall e he with h | h | h <;> have htime := h.time <;> omega
  · rcases hall e he with h | h | h <;> rw [h.type] at hk <;> cases hk <;> have hduration := h.duration <;>
      rw [Kind.longest] <;> omega
  · rw [hdrawn, hcount]
    simp only [if_true, reduceCtorEq, if_false]
    omega
  · rw [hdrawn, hcount]
    simp only [if_true, reduceCtorEq, if_false]
    omega
  · rw [hdrawn, hcount]
    simp only [if_true, reduceCtorEq, if_false]
    omega

/-- The file is read to its end, and the lines are in the queue. -/
theorem reads_back (malloc : Nat → Event) (type : Char) {arrivals : List Event} (P : Plausible arrivals) :
    ∃ N, ∀ fuel ≥ N, Reader.initEQ malloc (written arrivals) type fuel = some (Chamber.initEQ arrivals) := by
  have hE : ∀ e ∈ arrivals, e.type ≠ 'E' := by
    intro e he htype
    exact P.types e he (by rw [htype]; rfl)
  have hints : ∀ e ∈ arrivals,
      (-2 ^ 31 ≤ e.time ∧ e.time < 2 ^ 31) ∧ -2 ^ 31 ≤ e.duration ∧ e.duration < 2 ^ 31 := by
    intro e he
    obtain ⟨k, hk⟩ := Option.ne_none_iff_exists'.1 (P.types e he)
    have htime := P.times e he
    have hduration := P.durations e he k hk
    cases k <;> rw [Kind.longest] at hduration <;> omega
  obtain ⟨k, t, hk, hpc, hrest, hstored⟩ := Reader.lines_read malloc (m := ['E', '\n'])
    (s := Reader.start (written arrivals) type) hE hints rfl rfl
  have hclosed : ((Reader.step malloc)^[k + 1] (Reader.start (written arrivals) type)).pc = .closed := by
    rw [Function.iterate_succ_apply', hk, Reader.step_end hpc (by rw [hrest]; rfl)]
  have hall : ((Reader.step malloc)^[k + 1] (Reader.start (written arrivals) type)).stored = arrivals := by
    rw [Function.iterate_succ_apply', hk, Reader.step_end hpc (by rw [hrest]; rfl)]
    exact hstored
  have hfits : arrivals.length ≤ capacity := P.length.trans (by decide)
  refine ⟨k + 1, fun fuel hfuel => ?_⟩
  obtain ⟨j, rfl⟩ := Nat.exists_eq_add_of_le' hfuel
  rw [Reader.initEQ, Function.iterate_add_apply, Reader.closed_iterate hclosed, hall, if_pos ⟨hclosed, hfits⟩]

end Arrivals

/-! ## The times that are printed -/

namespace Chamber

variable {s s' t : Chamber} {i : Nat} {k : Kind} {v : Visitor} {next e : Event} {arrivals : List Event}

/-- When somebody came, started a visit or ended it, and when the doctor leaves. -/
def shown (s : Chamber) : List Int :=
  s.doneTime :: (s.came.map fun v => v.event.time) ++
    s.served.flatMap fun x => [x.start, x.start + x.visitor.event.duration]

structure DayInv (s : Chamber) : Prop where
  visits : ∀ x ∈ s.served, 0 ≤ x.start ∧ x.start + x.visitor.event.duration ≤ s.currentTime
  doneTime : 0 ≤ s.doneTime

theorem leave_nonneg (hdone : 0 ≤ s.doneTime) (hclock : 0 ≤ s.currentTime) : 0 ≤ s.leave := by
  unfold leave
  split_ifs
  · exact hclock
  · exact hdone

theorem closeSession_doneTime_nonneg (hdone : 0 ≤ s.doneTime) (hclock : 0 ≤ s.currentTime) (next : Event) :
    0 ≤ (s.closeSession next).doneTime := by
  have hcheck : 0 ≤ s.checkSession.doneTime := by
    rcases s.doneTime_checkSession with h | h <;> omega
  unfold closeSession joinDoctor
  split_ifs
  · exact leave_nonneg hcheck (by rwa [checkSession_currentTime])
  · exact hcheck

namespace DayInv

theorem init (arrivals : List Event) : DayInv (Chamber.init arrivals) where
  visits _ hx := absurd hx List.not_mem_nil
  doneTime := le_rfl

/-- The clock goes on. -/
theorem congr (Y : DayInv s) (hserved : s'.served = s.served) (htime : s.currentTime ≤ s'.currentTime)
    (hdone : 0 ≤ s'.doneTime) : DayInv s' where
  visits := by
    rw [hserved]
    intro x hx
    have hvisit := Y.visits x hx
    omega
  doneTime := hdone

theorem visit (Y : DayInv s) (hclock : 0 ≤ s.currentTime) (hdur : 0 ≤ v.event.duration)
    (hend : (s.visit k i v).currentTime = s.currentTime + v.event.duration) : DayInv (s.visit k i v) where
  visits x hx := by
    rcases List.mem_append.1 hx with hx | hx
    · have hold := Y.visits x hx
      omega
    · rw [List.mem_singleton.1 hx]
      exact ⟨hclock, hend.ge⟩
  doneTime := Y.doneTime

theorem step (Y : DayInv s) (I : SchedInv s) (F : s.Fits) (h : s.step i = some s') : DayInv s' := by
  have hclose : ∀ next, 0 ≤ (s.closeSession next).doneTime := closeSession_doneTime_nonneg Y.doneTime I.clock.1
  have hcongr : ∀ {t : Chamber} (next : Event), t.served = (s.closeSession next).served →
      t.currentTime = (s.closeSession next).currentTime → t.doneTime = (s.closeSession next).doneTime → DayInv t := by
    intro t next hserved htime hdone
    exact Y.congr (hserved.trans (closeSession_served s next)) (htime.trans (closeSession_currentTime s next)).ge
      (by rw [hdone]; exact hclose next)
  cases moved_of_step h with
  | drained => exact Y.congr rfl le_rfl Y.doneTime
  | doctorEvent next | ahead next | refused next | admitted next => exact hcongr next rfl rfl rfl
  | visited next k l v ha hkind hreason hnow hfree hturn hv =>
    obtain ⟨hend, hdur⟩ := served_currentTime I F ha hkind hreason hv
    have hclock : ((s.closeSession next).admitVisitor next k).currentTime = s.currentTime := by simp [admitVisitor]
    have hadmit : DayInv ((s.closeSession next).admitVisitor next k) := hcongr next rfl rfl rfl
    have hvisit := hadmit.visit (k := l) (i := i) (I.arrive ha hkind).clock.1 hdur (by rw [hend, hclock])
    refine hvisit.congr rfl ?_ hvisit.doneTime
    unfold finish
    dsimp only
    split_ifs with hlt
    · exact hlt.le
    · exact le_rfl
  | other next s' ha hkind => exact absurd hkind (I.types next ha.mem_left)
  | others next k v hpc hlt hturn hv | pending k v hpc hturn hv =>
    have hmem := List.mem_of_getElem? hv
    exact Y.visit I.clock.1 (I.duration_nonneg hmem) (I.visit_currentTime hv ((F k).1 v hmem))
  | resume next hpc hnobody =>
    refine Y.congr (closeSession_served s next) ?_ (hclose next)
    dsimp only
    split_ifs with hlt
    · exact hlt.le
    · exact le_rfl
  | returned => exact Y.congr rfl le_rfl (leave_nonneg Y.doneTime I.clock.1)

end DayInv

/-! ## How long it takes -/

/-- The visits take no longer than the longest ones of their classes. -/
theorem durations_le (xs : List Visit) (hlong : ∀ x ∈ xs, ∃ k, kindOf x.visitor.event.type = some k ∧
    x.visitor.event.duration ≤ k.longest) :
    (xs.map fun x => x.visitor.event.duration).sum ≤
      2 * (countKind .reporter (xs.map Visit.visitor : List Visitor) : Int) +
        15 * (countKind .patient (xs.map Visit.visitor : List Visitor) : Int) +
        10 * (countKind .salesrep (xs.map Visit.visitor : List Visitor) : Int) := by
  induction xs with
  | nil => rfl
  | cons x xs ih =>
    obtain ⟨⟨k, hk, hle⟩, hlong⟩ := List.forall_mem_cons.1 hlong
    have hrest := ih hlong
    rw [List.map_cons, List.map_cons, List.sum_cons, ← Multiset.cons_coe, countKind_cons .reporter k _ _ hk,
      countKind_cons .patient k _ _ hk, countKind_cons .salesrep k _ _ hk]
    cases k <;> rw [Kind.longest] at hle <;> simp only [if_true, reduceCtorEq, if_false] <;> omega

section
variable {n : Nat}

theorem mem_arrivals_of_came (V : VisitorsInv arrivals n s) (hv : v ∈ s.came) : v.event ∈ arrivals := by
  have hhandled : v.event ∈ s.handled := by
    rw [handled, Multiset.mem_add, Multiset.mem_coe, Multiset.mem_coe]
    rcases mem_came.1 hv with hv | ⟨r, hr, rfl⟩
    · exact .inl (List.mem_map_of_mem hv)
    · exact .inr (List.mem_map.2 ⟨r, hr, rfl⟩)
  rw [← Multiset.mem_coe, ← V.balance]
  exact Multiset.mem_add.2 (.inr hhandled)

theorem mem_admitted_of_served (C : Counts s) {x : Visit} (hx : x ∈ s.served) : x.visitor ∈ s.admitted := by
  rw [← Multiset.mem_coe, C.admitted]
  exact Multiset.mem_add.2 (.inl (Multiset.mem_coe.2 (List.mem_map_of_mem hx)))

/-- 15 reporters, 25 patients and 3 sales reps. -/
theorem busy_le_of_plausible (V : VisitorsInv arrivals n s) (P : Arrivals.Plausible arrivals) : s.busy ≤ 435 := by
  have hlong : ∀ x ∈ s.served, ∃ k, kindOf x.visitor.event.type = some k ∧ x.visitor.event.duration ≤ k.longest := by
    intro x hx
    have hmem := mem_arrivals_of_came V (mem_came.2 (.inl (mem_admitted_of_served V.counts hx)))
    obtain ⟨k, hk⟩ := Option.ne_none_iff_exists'.1 (P.types _ hmem)
    exact ⟨k, hk, (P.durations _ hmem k hk).2⟩
  have hsum := durations_le s.served hlong
  have hseen : ∀ k, countKind k s.seen ≤ countKind k s.admitted := by
    intro k
    rw [V.counts.admitted, countKind_add]
    exact Nat.le_add_right _ _
  have hreporters := (countKind_seen_le V .reporter).trans P.reporters
  have hpatients := (hseen .patient).trans (V.counts.patients.le.trans (min_le_right _ _))
  have hsales := (hseen .salesrep).trans (V.counts.salesreps.le.trans (min_le_right _ _))
  rw [seen] at hreporters hpatients hsales
  rw [busy]
  rw [maxPatients] at hpatients
  rw [maxSalesreps] at hsales
  omega

theorem shown_within (V : VisitorsInv arrivals n s) (Y : DayInv s) (K : ClockInv s) (hclock : s.currentTime ≤ 344 + s.busy)
    (P : Arrivals.Plausible arrivals) {x : Int} (hx : x ∈ s.shown) : -30 ≤ x ∧ x ≤ 779 := by
  have hbusy := busy_le_of_plausible V P
  rw [shown, List.cons_append, List.mem_cons, List.mem_append, List.mem_map, List.mem_flatMap] at hx
  rcases hx with rfl | ⟨v, hv, rfl⟩ | ⟨y, hy, hx⟩
  · have hdone := Y.doneTime
    have hle := K.doneTime
    omega
  · have htime := P.times _ (mem_arrivals_of_came V hv)
    omega
  · have hvisit := Y.visits y hy
    have hdur := V.sched.durations.2 y hy
    rw [List.mem_cons, List.mem_singleton] at hx
    omega

end

/-- **Every day that arrival.c can draw up goes well.** The file is read back; in every run of the session on it the
arrays are not left, and the times that are printed are the right ones; the session comes to its end, and then 25 patients
and 3 sales reps have seen the doctor. -/
theorem day_of_arrival_file (rand : Nat → Nat) (malloc : Nat → Event) (type : Char) :
    (∃ N, ∀ fuel ≥ N, Reader.initEQ malloc (Arrivals.main rand) type fuel =
      some (Chamber.init (Arrivals.drawn rand)).E) ∧
    ∀ (as : List Nat) (s : Chamber), Trans.run Chamber.step (Chamber.init (Arrivals.drawn rand)) as = some s →
      as.length ≤ 376 ∧ (s.pc ≠ .returned → ∃ i t, s.step i = some t) ∧
      (∀ a ∈ s.accesses, a.InBounds 62) ∧ (∀ x ∈ s.shown, ∃ c : Clock, getTime x = c.text ∧ c.Right x) ∧
      (s.pc = .returned → countKind .patient s.seen = 25 ∧ countKind .salesrep s.seen = 3) := by
  have P := Arrivals.plausible_drawn rand
  have hdur : ∀ e ∈ Arrivals.drawn rand, 0 ≤ e.duration := by
    intro e he
    obtain ⟨k, hk⟩ := Option.ne_none_iff_exists'.1 (P.types e he)
    exact (P.durations e he k hk).1
  refine ⟨Arrivals.reads_back malloc type P, fun as s h => ?_⟩
  have A := P.ample
  have hfits := A.along P.types hdur as
  have B := (BoundInv.init P.types hdur).run h hfits
  have Q := (QuotaInv.init P.types hdur).run h hfits
  have J := (JoinInv.init P.types hdur).run h hfits
  obtain ⟨V, hclock⟩ := A.run P.types hdur h
  have hsteps := V.steps
  have hlength := P.length
  have Y : DayInv s := by
    have hrun := Trans.run_inv_along (I := fun _ t => SchedInv t ∧ DayInv t) ⟨.init P.types hdur, .init _⟩ ?_ h hfits
    · exact hrun.2
    · rintro as t a t' ⟨I, Y'⟩ F ht
      exact ⟨I.step F ht, Y'.step I F ht⟩
  refine ⟨by omega, fun hpc => ⟨0, exists_step hpc⟩, fun a ha => ?_, fun x hx => ⟨clock x, rfl, ?_⟩, fun hend => ?_⟩
  · have hbounds := B.access (hlength.trans (by decide)) ha
    cases a with
    | event index => exact ⟨hbounds.1.trans_le (Nat.succ_le_succ hlength), hbounds.2⟩
    | info index => exact Nat.lt_of_lt_of_le hbounds hlength
  · have hwithin := shown_within V Y J.clock hclock P hx
    exact (clock_right_iff x).2 ⟨by omega, by omega, by omega⟩
  · obtain ⟨hpatients, hsales⟩ := Q.served_eq hend
    exact ⟨hpatients.trans (min_eq_right P.patients), hsales.trans (min_eq_right P.salesreps)⟩

end Chamber

end OsLab.A6
