import OsLab.A6.Outcome

/-!
# A visitor that is called comes (A6/session.c)

Once the doctor has told main that it is there, the three meet: a class that main calls has somebody in line (`Lined`),
the flag that main sets wakes one of them, since main has the mutex of the class when it sets it and when it signals
(`Woken`), and whoever takes the flag comes to the barrier (`Met`). So nobody is stuck before the barrier has tripped
(`handover_never_stuck`). The one wait of main that can be in vain is the one for `asst_done` before that.
-/

namespace OsLab.A6

open Function (update)
open Trans (Reach)

/-! ## The barrier -/

namespace PthreadBarrier

variable {ι : Type} {b b' : PthreadBarrier ι} {n : Nat} {I : Finset ι} {i : ι}

/-- A round that has all its parties is about to trip. -/
def Short (b : PthreadBarrier ι) : Prop :=
  (∀ i, b.pc i ≠ some .test ∧ b.pc i ≠ some .reset) → b.count < b.tripCount

theorem Short.congr (H : b.Short) (hcount : b'.count = b.count) (htrip : b'.tripCount = b.tripCount)
    (hpc : ∀ i, b'.pc i ≠ some .test ∧ b'.pc i ≠ some .reset → b.pc i ≠ some .test ∧ b.pc i ≠ some .reset) :
    b'.Short := by
  intro hno
  rw [hcount, htrip]
  exact H fun i => hpc i (hno i)

variable [DecidableEq ι]

theorem Short.goto {p : Option WaitPc} (H : b.Short) (hcount : b'.count = b.count) (htrip : b'.tripCount = b.tripCount)
    (hpc : b'.pc = update b.pc i p) (hi : b.pc i ≠ some .test ∧ b.pc i ≠ some .reset) : b'.Short := by
  refine H.congr hcount htrip fun j hj => ?_
  by_cases e : j = i
  · rw [e]
    exact hi
  · rwa [hpc, Function.update_of_ne e] at hj

theorem Short.step {op : BarrierOp ι} (hpos : 0 < b.tripCount) (H : b.Short) (h : b.step op = some b') : b'.Short := by
  cases move_of_step h with
  | enter i hpc | lock i hpc | wait i hpc | relock i hpc | wake i hpc => exact H.goto rfl rfl rfl (by simp [hpc])
  | incr i => exact fun hno => absurd (goto_pc_same _ _ _) (hno i).1
  | trip i => exact fun hno => absurd (goto_pc_same _ _ _) (hno i).2
  | noTrip i _ hlt => exact fun _ => hlt
  | reset i => exact fun _ => hpos
  | broadcast i hpc =>
    refine H.congr rfl rfl fun j hj => ?_
    by_cases e : j = i
    · simp [e, hpc]
    · by_cases hblocked : b.pc j = some .blocked
      · simp [hblocked]
      · simpa [goto_pc, e, wakeAll, hblocked] using hj
  | ret i hpc => exact H.goto rfl rfl rfl (by rcases hpc with hpc | hpc <;> simp [hpc])

theorem exists_step_of_holds (h : holds (b.pc i) = true) : ∃ b', b.step (.step i) = some b' := by
  rcases hpc : b.pc i with _ | p <;> rw [hpc] at h
  · cases h
  · simp only [step, hpc, Option.bind_some]
    cases p <;> first | exact ⟨_, rfl⟩ | cases h

/-- Who is let out is not held up for ever. -/
theorem Gathers.exists_step_of_leaving (G : Gathers n I b) (h : leaving (b.pc i) = true) :
    ∃ j b', b.step (.step j) = some b' := by
  cases ho : b.owner with
  | some j => exact ⟨j, exists_step_of_holds ((G.owner j).1 ho)⟩
  | none =>
    refine ⟨i, ?_⟩
    rcases hpc : b.pc i with _ | p <;> rw [hpc] at h
    · cases h
    · simp only [step, hpc, Option.bind_some]
      cases p with
      | relock => exact ⟨_, if_pos ho⟩
      | unlock | unlockTrip => exact ⟨_, rfl⟩
      | _ => cases h

/-- When all parties are inside somebody goes on. -/
theorem Gathers.exists_step (G : Gathers n I b) (H : b.Short) (hcard : I.card = n) :
    ∃ i b', b.step (.step i) = some b' := by
  by_contra hstuck
  push Not at hstuck
  have hfree : ∀ i, holds (b.pc i) = false := by
    intro i
    by_contra hheld
    obtain ⟨b', hb⟩ := exists_step_of_holds (by simpa using hheld)
    exact hstuck i b' hb
  have howner : b.owner = none := by
    cases ho : b.owner with
    | none => rfl
    | some i => exact absurd ((G.owner i).1 ho) (by simp [hfree i])
  have hblocked : ∀ i ∈ I, b.pc i = some .blocked := by
    intro i hi
    obtain ⟨hin, hleaving⟩ := (G.mem i).1 hi
    rcases hpc : b.pc i with _ | p
    · exact absurd hpc hin
    · have hheld := hfree i
      rw [hpc] at hheld hleaving
      cases p with
      | lock =>
        exact absurd (by simp [step, hpc, exec, acquire, howner]) (hstuck i ({ b with owner := some i }.goto i .incr))
      | blocked => rfl
      | relock | unlock | unlockTrip => cases hleaving
      | _ => cases hheld
  have hno : ∀ i, b.pc i ≠ some .test ∧ b.pc i ≠ some .reset ∧ b.pc i ≠ some .broadcast := by
    intro i
    have hheld := hfree i
    refine ⟨fun h => ?_, fun h => ?_, fun h => ?_⟩ <;> rw [h] at hheld <;> cases hheld
  have hcount := G.count fun i => (hno i).2.2
  rw [Finset.filter_true_of_mem fun i hi => by rw [hblocked i hi]; rfl, hcard] at hcount
  have hlt := H fun i => ⟨(hno i).1, (hno i).2.1⟩
  rw [G.tripCount, hcount] at hlt
  exact lt_irrefl n hlt

end PthreadBarrier

/-! ## The invariant -/

/-- The class whose flag main has set and that it has not signalled yet. -/
def MainPc.rouses : MainPc → Option Kind
  | .call .count k _ | .call .signal k _ => some k
  | _ => none

/-- On its way to its flag. -/
def VisitorPc.awake : VisitorPc → Bool
  | .relock | .test | .take => true
  | _ => false

/-- Who waits, has been heard, has not the mutex and is not blocked has been woken. -/
theorem VisitorPc.awake_of_waits {p : VisitorPc} (hwaits : p.waits = true) (hheard : p.unheard = false)
    (hout : p.holds = false) (hblocked : p ≠ .blocked) : p.awake = true := by
  cases p <;> simp_all [waits, unheard, holds, awake]

/-- Somebody waits in the class that main calls. -/
def Lined (m : MainPc) (ts : List Thread) : Prop :=
  ∀ p k v, m = .call p k v → ∃ u ∈ ts, u.kind = k ∧ u.pc.waits = true

/-- A flag that is set wakes somebody. -/
def Woken (m : MainPc) (ts : List Thread) (done : Kind → Bool) : Prop :=
  ∀ k, done k = true → m.rouses = some k ∨ ∃ u ∈ ts, u.kind = k ∧ u.pc.awake = true

/-- main waits for a visitor that has been called, or has come. -/
def Met (meets : Bool) (done : Kind → Bool) (seen : Nat → Prop) : Prop :=
  meets = true → (∃ k, done k = true) ∨ ∃ j, seen j

section
variable {m m' : MainPc} {ts : List Thread} {done : Kind → Bool} {i : Nat} {u : Thread} {p : VisitorPc} {k : Kind}

theorem MainPc.wakeAsst_call (m : MainPc) :
    m.wakeAsst.rouses = m.rouses ∧ ∀ p k v, m.wakeAsst = .call p k v ↔ m = .call p k v := by
  cases m with
  | asst p a => cases p <;> exact ⟨rfl, fun _ _ _ => by simp [MainPc.wakeAsst]⟩
  | _ => exact ⟨rfl, fun _ _ _ => Iff.rfl⟩

/-- Who is found by what a step keeps is still there. -/
theorem exists_mem_goto {Q : Thread → Prop} (hu : ts[i]? = some u) (h : ∃ v ∈ ts, Q v)
    (hQ : Q u → Q { u with pc := p }) : ∃ v ∈ ts.set i { u with pc := p }, Q v := by
  obtain ⟨v, hv, hQv⟩ := h
  obtain ⟨j, hj⟩ := List.mem_iff_getElem?.1 hv
  by_cases e : j = i
  · subst e
    rw [hu] at hj
    cases hj
    exact ⟨_, List.mem_of_getElem? (by rw [getElem?_goto hu, if_pos rfl]), hQ hQv⟩
  · exact ⟨v, List.mem_of_getElem? (by rw [getElem?_goto hu, if_neg e]; exact hj), hQv⟩

theorem Lined.goto (L : Lined m ts) (hm : ∀ p k v, m' = .call p k v → m = .call p k v) (hu : ts[i]? = some u)
    (hp : u.pc.waits = true → p.waits = true) : Lined m' (ts.set i { u with pc := p }) := fun a k v h =>
  exists_mem_goto hu (L a k v (hm a k v h)) fun hQ => ⟨hQ.1, hp hQ.2⟩

theorem Woken.goto (W : Woken m ts done) (hm : m'.rouses = m.rouses) (hu : ts[i]? = some u)
    (hp : u.pc.awake = true → done u.kind = true → p.awake = true) : Woken m' (ts.set i { u with pc := p }) done := by
  intro k hk
  refine (W k hk).imp hm.trans fun h => exists_mem_goto hu h fun hQ => ⟨hQ.1, hp hQ.2 ?_⟩
  rw [hQ.1]
  exact hk

end

namespace Clinic

structure Called (s : Clinic) : Prop where
  short : s.barrier.Short
  line : Lined s.main s.threads
  woken : Woken s.main s.threads s.visitorDone
  met : Met (s.main.meets (s.barrier.inside .main)) s.visitorDone (Seen s.barrier s.threads)

variable {s s' : Clinic} {b : PthreadBarrier Party} {i n : Nat} {u : Thread} {p : VisitorPc}

theorem short_of_move (P : s.Protocol) (H : s.barrier.Short) (h : PartyMove s.barrier b) : b.Short := by
  obtain ⟨I, G⟩ := P.meeting.gathers
  have hpos : 0 < s.barrier.tripCount := by
    rw [G.tripCount]
    decide
  rcases h with rfl | ⟨p, h | h⟩
  · exact H
  · exact H.step hpos h
  · exact H.step hpos h

/-- Who moves in the barrier brings nobody in, and who comes to it only itself. -/
theorem inside_of_inside (P : s.Protocol) {p q : Party}
    (h : s.barrier.step (.step p) = some b ∨ q ≠ p ∧ s.barrier.step (.enter p) = some b) (hq : b.inside q) :
    s.barrier.inside q := by
  rcases h with hstep | ⟨hne, henter⟩
  · obtain ⟨I, G⟩ := P.meeting.gathers
    obtain ⟨-, hpasses⟩ := G.step_cases hstep
    cases hpasses with
    | on hinside => exact (hinside q).1 hq
    | out _ hnone hother =>
      have hne : q ≠ p := fun e => hq.1 (e ▸ hnone)
      rw [PthreadBarrier.inside, hother q hne] at hq
      exact hq
    | trip _ _ _ _ hnone => exact absurd hq (hnone q)
  · simp only [PthreadBarrier.step] at henter
    split_ifs at henter
    cases henter
    simpa [PthreadBarrier.inside, PthreadBarrier.goto, hne] using hq

namespace Called

/-- While main meets somebody no round ends. -/
theorem keeps (P : s.Protocol) (hb : PartyMove s.barrier b) (h : s.main.meets (b.inside .main) = true) (q : Party)
    (hq : s.barrier.inside q) : b.inside q := by
  rcases keeps_or_trips P hb with hkeeps | ⟨hmain, -, -, hnone⟩
  · exact hkeeps q hq
  · have hin : s.main.inBarrier = true := P.meeting.main.1 hmain.1
    cases hm : s.main <;> rw [hm] at hin h <;> cases hin
    exact absurd (of_decide_eq_true h) (hnone _)

theorem meets_back (hback : b.inside .main → s.barrier.inside .main) (h : s.main.meets (b.inside .main) = true) :
    s.main.meets (s.barrier.inside .main) = true := by
  cases hm : s.main <;> rw [hm] at h
  case barrier v => exact decide_eq_true (hback (of_decide_eq_true h))
  case enter v => rfl
  all_goals cases h

theorem sameMain (hm : s'.main = s.main ∨ s'.main = s.main.wakeAsst) :
    s'.main.rouses = s.main.rouses ∧ (∀ p k v, s'.main = .call p k v → s.main = .call p k v) ∧
      s'.main.meets (s'.barrier.inside .main) = s.main.meets (s'.barrier.inside .main) := by
  obtain ⟨hrouses, hcall⟩ := s.main.wakeAsst_call
  obtain ⟨-, -, -, -, -, -, hmeets, -⟩ := wakeAsst_spec s.main
  rcases hm with hm | hm <;> rw [hm]
  · exact ⟨rfl, fun _ _ _ => id, rfl⟩
  · exact ⟨hrouses, fun p k v => (hcall p k v).1, hmeets _⟩

theorem seen_mono {v : VisitorPc} {q : Party} (hq : s.barrier.inside q → b.inside q)
    (h : v.seen (s.barrier.inside q) = true) : v.seen (b.inside q) = true := by
  cases v with
  | barrier => exact decide_eq_true (hq (of_decide_eq_true h))
  | _ => exact h

/-- The doctor goes on. -/
theorem congr (C : s.Called) (P : s.Protocol) (hb : PartyMove s.barrier s'.barrier)
    (hback : s'.barrier.inside .main → s.barrier.inside .main) (hm : s'.main = s.main ∨ s'.main = s.main.wakeAsst)
    (hts : s'.threads = s.threads) (hdone : s'.visitorDone = s.visitorDone) : s'.Called := by
  obtain ⟨hrouses, hcall, hmeets⟩ := sameMain hm
  refine ⟨short_of_move P C.short hb, ?_, ?_, ?_⟩
  · rw [hts]
    exact fun a k v h => C.line a k v (hcall a k v h)
  · rw [hts, hdone]
    exact fun k hk => (C.woken k hk).imp hrouses.trans id
  · rw [hts, hdone, hmeets]
    intro h
    refine (C.met (meets_back hback h)).imp id fun ⟨j, v, hv, hseen⟩ => ⟨j, v, hv, ?_⟩
    exact seen_mono (keeps P hb h _) hseen

theorem stepDoctor (C : s.Called) (P : s.Protocol) (h : s.stepDoctor = some s') : s'.Called := by
  cases hpc : s.doctor <;> simp only [Clinic.stepDoctor, hpc] at h
  case unborn | blocked | left => cases h
  case lock | relock =>
    obtain ⟨m, -, rfl⟩ := Option.map_eq_some_iff.1 h
    exact C.congr P (.inl rfl) id (.inl rfl) rfl rfl
  case check =>
    split_ifs at h <;> cases h <;> exact C.congr P (.inl rfl) id (.inl rfl) rfl rfl
  case signal =>
    cases h
    exact C.congr P (.inl rfl) id (.inr (signalAsst_main s)) rfl rfl
  case enter =>
    obtain ⟨b, hb, rfl⟩ := Option.map_eq_some_iff.1 h
    exact C.congr P (.inr ⟨_, .inl hb⟩) (inside_of_inside P (.inr ⟨by simp, hb⟩)) (.inl rfl) rfl rfl
  case barrier =>
    obtain ⟨⟨s₁, done⟩, hb, rfl⟩ := Option.map_eq_some_iff.1 h
    obtain ⟨b, hstep, he⟩ := Option.map_eq_some_iff.1 hb
    cases he
    exact C.congr P (.inr ⟨_, .inr hstep⟩) (inside_of_inside P (.inl hstep)) (.inl rfl) rfl rfl
  all_goals
    cases h
    exact C.congr P (.inl rfl) id (.inl rfl) rfl rfl

/-! ### A visitor -/

theorem ofVisitor (C : s.Called) (P : s.Protocol) (hu : s.threads[i]? = some u) (hb : PartyMove s.barrier s'.barrier)
    (hback : s'.barrier.inside .main → s.barrier.inside .main) (hm : s'.main = s.main ∨ s'.main = s.main.wakeAsst)
    (hts : s'.threads = s.threads.set i { u with pc := p }) (hdone : s'.visitorDone = s.visitorDone)
    (hwaits : u.pc.waits = true → p.waits = true)
    (hawake : u.pc.awake = true → s.visitorDone u.kind = true → p.awake = true)
    (hseen : (s.barrier.inside (.visitor i) → s'.barrier.inside (.visitor i)) →
      u.pc.seen (s.barrier.inside (.visitor i)) = true → p.seen (s'.barrier.inside (.visitor i)) = true) : s'.Called := by
  obtain ⟨hrouses, hcall, hmeets⟩ := sameMain hm
  refine ⟨short_of_move P C.short hb, ?_, ?_, ?_⟩
  · rw [hts]
    exact C.line.goto hcall hu hwaits
  · rw [hts, hdone]
    exact C.woken.goto hrouses hu hawake
  · rw [hts, hdone, hmeets]
    intro h
    have hkeeps := keeps P hb h
    refine (C.met (meets_back hback h)).imp id fun ⟨j, v, hv, hsv⟩ => ?_
    by_cases e : j = i
    · subst e
      rw [hu] at hv
      cases hv
      exact ⟨j, _, by rw [getElem?_goto hu, if_pos rfl], hseen (hkeeps _) hsv⟩
    · exact ⟨j, v, by rw [getElem?_goto hu, if_neg e]; exact hv, seen_mono (hkeeps _) hsv⟩

/-- The visitor that takes its flag has come. -/
theorem take (C : s.Called) (P : s.Protocol) (hu : s.threads[i]? = some u) (hpc : u.pc = .take) :
    Called ({ s with visitorDone := update s.visitorDone u.kind false }.setThread i u .visit) := by
  have hmeets := Sim.meets_of_take P hu hpc
  have honly := (P.calling.called u.kind (P.calling.take i u hu hpc)).1
  refine ⟨C.short, fun a k v h => ?_, fun k hk => ?_, fun _ => .inr ⟨i, { u with pc := .visit }, ?_, rfl⟩⟩
  · rw [show s.main = .call a k v from h] at hmeets
    cases hmeets
  · have hne : k ≠ u.kind := by
      rintro rfl
      simp [Clinic.setThread] at hk
    have hk' : s.visitorDone k = true := by simpa [Clinic.setThread, Function.update_of_ne hne] using hk
    exact absurd (honly k hk') hne
  · show (s.threads.set i _)[i]? = _
    rw [getElem?_goto hu, if_pos rfl]

theorem stepVisitor (C : s.Called) (P : s.Protocol) (h : s.stepVisitor i = some s') : s'.Called := by
  obtain ⟨u, hu, h⟩ := Option.bind_eq_some_iff.1 h
  cases hpc : u.pc <;> simp only [execVisitor, hpc] at h
  case blocked | left => cases h
  case lock | relock =>
    obtain ⟨m, -, rfl⟩ := Option.map_eq_some_iff.1 h
    exact C.ofVisitor P hu (.inl rfl) id (.inl rfl) rfl rfl (fun _ => rfl) (by simp [hpc, VisitorPc.awake])
      (by simp [hpc, VisitorPc.seen])
  case store | wait =>
    cases h
    exact C.ofVisitor P hu (.inl rfl) id (.inl rfl) rfl rfl (fun _ => rfl) (by simp [hpc, VisitorPc.awake])
      (by simp [hpc, VisitorPc.seen])
  case signal =>
    cases h
    exact C.ofVisitor P hu (.inl rfl) id (.inr (signalAsst_main s)) rfl rfl (fun _ => rfl) (by simp [hpc, VisitorPc.awake])
      (by simp [hpc, VisitorPc.seen])
  case test =>
    cases h
    refine C.ofVisitor P hu (.inl rfl) id (.inl rfl) rfl rfl ?_ (fun _ hk => ?_) (by simp [hpc, VisitorPc.seen])
    · split_ifs <;> exact fun _ => rfl
    · rw [hk]
      rfl
  case take =>
    cases h
    exact C.take P hu hpc
  case visit | unlock =>
    cases h
    exact C.ofVisitor P hu (.inl rfl) id (.inl rfl) rfl rfl (by simp [hpc, VisitorPc.waits])
      (by simp [hpc, VisitorPc.awake]) (fun _ _ => rfl)
  case enter =>
    obtain ⟨b, hb, rfl⟩ := Option.map_eq_some_iff.1 h
    have hin : b.inside (.visitor i) := by
      simp only [PthreadBarrier.step] at hb
      split_ifs at hb
      cases hb
      simp [PthreadBarrier.inside, leaving]
    exact C.ofVisitor P hu (.inr ⟨_, .inl hb⟩) (inside_of_inside P (.inr ⟨by simp, hb⟩)) (.inl rfl) rfl rfl
      (by simp [hpc, VisitorPc.waits]) (by simp [hpc, VisitorPc.awake]) fun _ _ => decide_eq_true hin
  case barrier =>
    obtain ⟨⟨s₁, done⟩, hb, rfl⟩ := Option.map_eq_some_iff.1 h
    obtain ⟨b, hstep, he⟩ := Option.map_eq_some_iff.1 hb
    cases he
    refine C.ofVisitor P hu (.inr ⟨_, .inr hstep⟩) (inside_of_inside P (.inl hstep)) (.inl rfl) rfl rfl
      (by simp [hpc, VisitorPc.waits]) (by simp [hpc, VisitorPc.awake]) fun hkeeps hseen => ?_
    rw [hpc] at hseen
    have hin : b.inside (.visitor i) := hkeeps (of_decide_eq_true hseen)
    rw [if_neg (by simpa using hin.1)]
    exact decide_eq_true hin

/-! ### main -/

/-- main goes on outside a handshake. -/
theorem ofMain (C : s.Called) (hb : s'.barrier = s.barrier) (hts : s'.threads = s.threads)
    (hdone : s'.visitorDone = s.visitorDone) (hrouses : s.main.rouses = none) (hcall : ∀ p k v, s'.main ≠ .call p k v)
    (hmeets : s'.main.meets (s.barrier.inside .main) = false) : s'.Called := by
  refine ⟨hb ▸ C.short, fun p k v h => absurd h (hcall p k v), fun k hk => .inr ?_, fun h => ?_⟩
  · rw [hdone] at hk
    rw [hts]
    exact (C.woken k hk).resolve_left (by simp [hrouses])
  · rw [hb, hmeets] at h
    cases h

/-- Somebody is in line when it is somebody's turn. -/
theorem exists_waiting {c d : Chamber} {w : Kind → List Visitor} {t x : Int} {k : Kind} (S : Sim c d w t x s)
    (P : s.Protocol) (ha : s.main.aside = true) (hsame : s.view = s.chamber) (hturn : s.chamber.turn = some k) :
    ∃ u ∈ s.threads, u.kind = k ∧ u.pc.waits = true := by
  have hchamber : s.chamber = { d.known w with currentTime := t, doneTime := x } := hsame.symm.trans S.chamber
  have hlengths := (S.quiet P ha).1
  have hturn' : d.turn = some k := by
    rw [← hturn, hchamber, ← Chamber.known_turn hlengths]
    rfl
  have hline : d.waiting k ≠ [] := by
    unfold Chamber.turn at hturn'
    split_ifs at hturn' with hr hp hs <;> cases hturn' <;> assumption
  rw [S.waiting] at hline
  obtain ⟨v, hv⟩ := List.exists_mem_of_ne_nil _ hline
  obtain ⟨⟨u, v'⟩, hp, -⟩ := List.mem_map.1 hv
  obtain ⟨hzip, hwaits⟩ := List.mem_filter.1 hp
  exact ⟨u, (List.of_mem_zip hzip).1, by simpa using hwaits⟩

/-- Nobody of a class whose mutex main has is between the lock and the unlock. -/
theorem not_holds {k : Kind} (P : s.Protocol) (hm : s.main.holds = some k) (hu : u ∈ s.threads) (hkind : u.kind = k) :
    u.pc.holds = false := by
  by_contra hheld
  obtain ⟨j, hj⟩ := List.mem_iff_getElem?.1 hu
  have hmain : Critical s.main.holds s.threads k .main := hm
  have hvisitor : Critical s.main.holds s.threads k (.visitor j) := ⟨u, hj, hkind, by simpa using hheld⟩
  cases P.calling.guards.unique hmain hvisitor

theorem stepCall {q : CallPc} {k : Kind} {v : Serve} (C : s.Called) (P : s.Protocol) (hm : s.main = .call q k v)
    (h : s.callVisitor q k v n = some s') : s'.Called := by
  have hline := C.line q k v hm
  have K := P.calling
  rw [hm] at K
  have hnext : ∀ (a : CallPc), Lined (.call a k v) s.threads := by
    intro a p l o h
    cases h
    exact hline
  have hnobody : ∀ {p : CallPc} {g : Kind → Bool} {f : Nat → Prop},
      Met ((MainPc.call p k v).meets (s.barrier.inside .main)) g f := fun h => by cases h
  cases q with
  | lock =>
    obtain ⟨m, -, rfl⟩ := Option.map_eq_some_iff.1 h
    exact ⟨C.short, hnext _, fun l hl => .inr ((C.woken l hl).resolve_left (by simp [hm, MainPc.rouses])), hnobody⟩
  | set =>
    cases h
    refine ⟨C.short, hnext _, fun l hl => ?_, hnobody⟩
    by_cases e : l = k
    · rw [e]
      exact .inl rfl
    · have hl' : s.visitorDone l = true := by simpa [Function.update_of_ne e] using hl
      exact .inr ((C.woken l hl').resolve_left (by simp [hm, MainPc.rouses]))
  | count =>
    cases h
    refine ⟨C.short, hnext _, fun l hl => ?_, hnobody⟩
    have hw := C.woken l hl
    rw [hm] at hw
    exact hw
  | signal =>
    have honly := (K.called k (K.set k rfl)).1
    simp only [callVisitor] at h
    split at h
    case h_1 u hu =>
      split_ifs at h with hwaits
      cases h
      obtain ⟨hkind, hpc⟩ : u.kind = k ∧ u.pc = .blocked := by simpa [Thread.waitsFor] using hwaits
      refine ⟨C.short, fun p l o he => ?_, fun l hl => .inr ?_, hnobody⟩
      · cases he
        exact exists_mem_goto hu hline fun hQ => ⟨hQ.1, rfl⟩
      · refine ⟨{ u with pc := .relock }, List.mem_of_getElem? (i := n) ?_, hkind.trans (honly l hl).symm, rfl⟩
        show (s.threads.set n _)[n]? = _
        rw [getElem?_goto hu, if_pos rfl]
    case h_2 =>
      split_ifs at h with hblocked
      cases h
      refine ⟨C.short, hnext _, fun l hl => .inr ?_, hnobody⟩
      obtain ⟨u, hu, hkind, hwaits⟩ := hline
      refine ⟨u, hu, hkind.trans (honly l hl).symm, ?_⟩
      have hheard : u.pc.unheard = false := by
        by_contra hun
        have hgreets := (P.greeting.unheard u hu (by simpa using hun)).1
        rw [hm] at hgreets
        cases hgreets
      have hout := not_holds P (by rw [hm]; rfl) hu hkind
      have hawake : u.pc ≠ .blocked := fun hpc =>
        hblocked (List.any_eq_true.2 ⟨u, hu, by simp [Thread.waitsFor, hkind, hpc]⟩)
      exact VisitorPc.awake_of_waits hwaits hheard hout hawake
  | unlock =>
    cases h
    refine ⟨C.short, fun p l o he => (by cases he), fun l hl => .inr ?_, fun _ => .inl ⟨k, K.set k rfl⟩⟩
    exact (C.woken l hl).resolve_left (by simp [hm, MainPc.rouses])

theorem stepBarrier {v : Serve} (C : s.Called) (P : s.Protocol) (hm : s.main = .barrier v)
    (hstep : s.barrier.step (.step .main) = some b) :
    Called { s with barrier := b, main := if b.pc .main = none then .addevent v else .barrier v } := by
  by_cases hnone : b.pc .main = none
  · rw [if_pos hnone]
    refine ⟨short_of_move P C.short (.inr ⟨_, .inr hstep⟩), fun p k o h => (by cases h), fun k hk => .inr ?_,
      fun h => (by cases h)⟩
    exact (C.woken k hk).resolve_left (by simp [hm, MainPc.rouses])
  · rw [if_neg hnone, ← hm]
    exact C.congr P (.inr ⟨_, .inr hstep⟩) (inside_of_inside P (.inl hstep)) (.inl rfl) rfl rfl

theorem stepEnter {v : Serve} (C : s.Called) (P : s.Protocol) (hm : s.main = .enter v)
    (hb : s.barrier.step (.enter .main) = some b) : Called { s with barrier := b, main := .barrier v } := by
  refine ⟨short_of_move P C.short (.inr ⟨_, .inl hb⟩), fun p k o h => (by cases h), fun k hk => .inr ?_, fun _ => ?_⟩
  · exact (C.woken k hk).resolve_left (by simp [hm, MainPc.rouses])
  · refine (C.met (by rw [hm]; rfl)).imp id fun ⟨j, u, hu, hseen⟩ => ⟨j, u, hu, ?_⟩
    exact seen_mono (inside_of_enter hb) hseen

theorem stepTurn {c d : Chamber} {w : Kind → List Visitor} {t x : Int} {v : Serve} (C : s.Called) (P : s.Protocol)
    (S : Sim c d w t x s) (hm : s.main = .turn v) :
    Called { s with main := match s.chamber.turn with
      | some k => .call .lock k v
      | none => back v } := by
  have hrouses : s.main.rouses = none := by rw [hm]; rfl
  split
  case h_1 k hk =>
    have hline := exists_waiting S P (by rw [hm]; rfl) (by rw [view, hm]) hk
    refine ⟨C.short, fun p l o h => ?_, fun l hl => .inr ?_, fun h => (by cases h)⟩
    · cases h
      exact hline
    · exact (C.woken l hl).resolve_left (by simp [hrouses])
  case h_2 =>
    exact C.ofMain rfl rfl rfl hrouses (by cases v <;> simp [back]) (by cases v <;> rfl)

theorem stepMain {c : Chamber} (C : s.Called) (R : Refines s c) (h : s.stepMain n = some s') : s'.Called := by
  obtain ⟨P, d, w, t, x, S⟩ := R
  cases hm : s.main <;> simp only [Clinic.stepMain, hm] at h
  case returned => cases h
  case call p k v => exact C.stepCall P hm h
  case turn v =>
    cases h
    exact C.stepTurn P S hm
  case enter v =>
    obtain ⟨b, hb, rfl⟩ := Option.map_eq_some_iff.1 h
    exact C.stepEnter P hm hb
  case barrier v =>
    obtain ⟨⟨s₁, done⟩, hb, rfl⟩ := Option.map_eq_some_iff.1 h
    obtain ⟨b, hstep, he⟩ := Option.map_eq_some_iff.1 hb
    cases he
    simpa only [decide_eq_true_eq] using C.stepBarrier P hm hstep
  case wake p o =>
    cases p with
    | lock =>
      obtain ⟨m, -, rfl⟩ := Option.map_eq_some_iff.1 h
      exact C.ofMain rfl rfl rfl (by rw [hm]; rfl) (by simp) rfl
    | set | signal =>
      cases h
      exact C.ofMain rfl rfl rfl (by rw [hm]; rfl) (by simp) rfl
    | unlock =>
      cases h
      cases o <;> exact C.ofMain rfl rfl rfl (by rw [hm]; rfl) (by simp) rfl
  case asst p o =>
    cases p with
    | lock | relock =>
      obtain ⟨m, -, rfl⟩ := Option.map_eq_some_iff.1 h
      exact C.ofMain rfl rfl rfl (by rw [hm]; rfl) (by simp) rfl
    | blocked => cases h
    | test | wait | clear =>
      cases h
      exact C.ofMain rfl rfl rfl (by rw [hm]; rfl) (by simp) rfl
    | unlock =>
      cases h
      cases o <;> exact C.ofMain rfl rfl rfl (by rw [hm]; rfl) (by simp) rfl
  case join l =>
    split_ifs at h
    cases h
    cases l <;> exact C.ofMain rfl rfl rfl (by rw [hm]; rfl) (by simp [behind]) rfl
  case createThread k =>
    cases h
    refine ⟨C.short, fun p l o he => (by cases he), fun l hl => .inr ?_, fun he => (by cases he)⟩
    obtain ⟨u, hu, hQ⟩ := (C.woken l hl).resolve_left (by simp [hm, MainPc.rouses])
    exact ⟨u, List.mem_append_left _ hu, hQ⟩
  case loop =>
    cases h
    simp only [Clinic.loop]
    split_ifs <;> exact C.ofMain rfl rfl rfl (by rw [hm]; rfl) (by simp) rfl
  case dispatch =>
    cases h
    simp only [Clinic.dispatch]
    split_ifs
    · exact C.ofMain rfl rfl rfl (by rw [hm]; rfl) (by simp) rfl
    · exact C.ofMain rfl rfl rfl (by rw [hm]; rfl) (by simp) rfl
    · split
      · split <;> exact C.ofMain rfl rfl rfl (by rw [hm]; rfl) (by simp) rfl
      · exact C.ofMain rfl rfl rfl (by rw [hm]; rfl) (by simp) rfl
  case receive =>
    cases h
    simp only [Clinic.receive]
    split_ifs <;> exact C.ofMain rfl rfl rfl (by rw [hm]; rfl) (by simp) rfl
  case others =>
    cases h
    simp only [Clinic.others]
    split_ifs <;> exact C.ofMain rfl rfl rfl (by rw [hm]; rfl) (by simp) rfl
  case addevent v =>
    cases h
    cases v <;> exact C.ofMain rfl rfl rfl (by rw [hm]; rfl) (by simp [back]) rfl
  case pending =>
    cases h
    split_ifs <;> exact C.ofMain rfl rfl rfl (by rw [hm]; rfl) (by simp) rfl
  case createDoctor | admitted k | finish | resume =>
    cases h
    exact C.ofMain rfl rfl rfl (by rw [hm]; rfl) (by simp) rfl

theorem step {c : Chamber} {a : SessionStep} (C : s.Called) (R : Refines s c) (h : s.step a = some s') : s'.Called := by
  cases a with
  | main n => exact C.stepMain R h
  | doctor => exact C.stepDoctor R.1 h
  | visitor i => exact C.stepVisitor R.1 h

theorem init (arrivals : List Event) : (Clinic.init arrivals).Called where
  short _ := show 0 < 3 by decide
  line p k v h := by cases h
  woken k h := by cases h
  met h := by cases h

end Called

theorem called_of_reach {arrivals : List Event} (h : Reach step (.init arrivals) s) : s.Called :=
  h.inv (Called.init arrivals) fun _ _ _ hr C _ hs => by
    obtain ⟨_, _, _, hR⟩ := refines_of_reach hr
    exact C.step hR hs

/-! ## Nobody is stuck -/

/-- Some thread can go on. -/
def GoesOn (s : Clinic) : Prop := ∃ a s', s.step a = some s'

/-- Who has a visitors' mutex goes on. -/
theorem goesOn_of_holds (hu : s.threads[i]? = some u) (hheld : u.pc.holds = true) : s.GoesOn := by
  refine ⟨.visitor i, ?_⟩
  simp only [Clinic.step, Clinic.stepVisitor, hu, Option.bind_some, execVisitor]
  cases hpc : u.pc <;> rw [hpc] at hheld <;> first | exact ⟨_, rfl⟩ | cases hheld

theorem free_or_goesOn (P : s.Protocol) (k : Kind) (hm : s.main.holds ≠ some k) : s.visitorMutex k = none ∨ s.GoesOn := by
  cases hmutex : s.visitorMutex k with
  | none => exact .inl rfl
  | some q =>
    have hinside := (P.calling.guards k q).1 hmutex
    cases q with
    | main => exact absurd hinside hm
    | doctor => exact hinside.elim
    | visitor j =>
      obtain ⟨u, hu, -, hheld⟩ := hinside
      exact .inr (goesOn_of_holds hu hheld)

/-- Who moves in the barrier is there. -/
theorem goesOn_of_barrier {q : Party} (P : s.Protocol) (hstep : s.barrier.step (.step q) = some b) : s.GoesOn := by
  have hin : s.barrier.pc q ≠ none := by
    intro h
    simp [PthreadBarrier.step, h] at hstep
  cases q with
  | main =>
    have hbarrier := P.meeting.main.1 hin
    cases hm : s.main <;> rw [hm] at hbarrier <;> cases hbarrier
    exact ⟨.main 0, _, by simp only [Clinic.step, Clinic.stepMain, hm, inBarrier, hstep, Option.map_some]; rfl⟩
  | doctor =>
    have hd := P.meeting.doctor.1 hin
    exact ⟨.doctor, _, by simp only [Clinic.step, Clinic.stepDoctor, hd, inBarrier, hstep, Option.map_some]; rfl⟩
  | visitor j =>
    obtain ⟨u, hu, hpc⟩ := (P.meeting.visitor j).1 hin
    exact ⟨.visitor j, _, by
      simp only [Clinic.step, Clinic.stepVisitor, hu, Option.bind_some, execVisitor, hpc, inBarrier, hstep, Option.map_some]
      rfl⟩

/-- Who is in front of the barrier can come to it. -/
theorem enters {q : Party} (h : s.barrier.pc q = none) : ∃ b, s.barrier.step (.enter q) = some b :=
  ⟨_, if_pos h⟩

/-- When all three are there the barrier trips. -/
theorem goesOn_of_inside {j : Nat} (P : s.Protocol) (C : s.Called) (hmain : s.barrier.inside .main)
    (hdoctor : s.barrier.inside .doctor) (hj : s.barrier.inside (.visitor j)) : s.GoesOn := by
  obtain ⟨I, G⟩ := P.meeting.gathers
  have hsub : {.main, .doctor, .visitor j} ⊆ I := by
    intro q hq
    rw [Finset.mem_insert, Finset.mem_insert, Finset.mem_singleton] at hq
    rw [G.mem]
    rcases hq with rfl | rfl | rfl <;> assumption
  have hthree : ({.main, .doctor, .visitor j} : Finset Party).card = 3 := by simp
  have hcard : I.card = 3 := le_antisymm G.card (hthree ▸ Finset.card_le_card hsub)
  obtain ⟨q, b, hstep⟩ := G.exists_step C.short hcard
  exact goesOn_of_barrier P hstep

theorem goesOn_of_met {v : Serve} (P : s.Protocol) (C : s.Called) (hm : s.main = .barrier v)
    (hmain : s.barrier.inside .main) (hplace : s.place = .come) : s.GoesOn := by
  have hmutex : ∀ k, s.visitorMutex k = none ∨ s.GoesOn := fun k => free_or_goesOn P k (by simp [hm, MainPc.holds])
  rcases C.met (by rw [hm]; exact decide_eq_true hmain) with ⟨k, hk⟩ | ⟨j, u, hu, hseen⟩
  · obtain ⟨u, hu, hkind, hawake⟩ := (C.woken k hk).resolve_left (by simp [hm, MainPc.rouses])
    obtain ⟨j, hj⟩ := List.mem_iff_getElem?.1 hu
    refine (hmutex u.kind).elim (fun hfree => ⟨.visitor j, ?_⟩) id
    simp only [Clinic.step, Clinic.stepVisitor, hj, Option.bind_some, execVisitor]
    cases hpc : u.pc <;> rw [hpc] at hawake
    case relock => exact ⟨_, by simp only [acquire, hfree, if_true]; rfl⟩
    case test | take => exact ⟨_, rfl⟩
    all_goals cases hawake
  · by_cases hheld : u.pc.holds = true
    · exact goesOn_of_holds hu hheld
    · by_cases hpc : u.pc = .enter
      · have hout : s.barrier.pc (.visitor j) = none := by
          by_contra hin
          obtain ⟨v, hv, hpcv⟩ := (P.meeting.visitor j).1 hin
          rw [hu] at hv
          cases hv
          rw [hpc] at hpcv
          cases hpcv
        obtain ⟨b, hb⟩ := enters hout
        exact ⟨.visitor j, _, by
          simp only [Clinic.step, Clinic.stepVisitor, hu, Option.bind_some, execVisitor, hpc, hb, Option.map_some]; rfl⟩
      · have hj : s.barrier.inside (.visitor j) := by
          cases hpcu : u.pc <;> simp [hpcu, VisitorPc.seen, VisitorPc.holds] at hseen hheld hpc
          exact hseen
        cases hd : s.doctor <;> simp only [Clinic.place, hd, DoctorPc.place] at hplace
        case signal => exact ⟨.doctor, _, by simp only [Clinic.step, Clinic.stepDoctor, hd]; rfl⟩
        case enter =>
          have hout : s.barrier.pc .doctor = none := by
            by_contra hin
            have hin' := P.meeting.doctor.1 hin
            rw [hd] at hin'
            cases hin'
          obtain ⟨b, hb⟩ := enters hout
          exact ⟨.doctor, _, by simp only [Clinic.step, Clinic.stepDoctor, hd, hb, Option.map_some]; rfl⟩
        case barrier =>
          split_ifs at hplace with hdoctor
          exact goesOn_of_inside P C hmain hdoctor hj
        all_goals cases hplace

/-- **A handshake is completed.** From the moment the doctor has told main that it is there, until the barrier has
tripped, some thread can go on: neither the signal to the visitors nor the barrier loses anybody. -/
theorem handover_never_stuck (arrivals : List Event) (s : Clinic) (h : Reach Clinic.step (.init arrivals) s)
    (htogether : s.phase = .together) : s.GoesOn := by
  have P := protocol_of_reach h
  have C := called_of_reach h
  have hplace : s.place = .come := by
    have hpaired := P.rousing.paired
    rw [htogether] at hpaired
    cases hplace : s.place <;> cases hdone : s.docDone <;> rw [hplace, hdone] at hpaired <;> simp [Paired] at hpaired ⊢
  cases hm : s.main
  case turn v => exact ⟨.main 0, _, by simp only [Clinic.step, Clinic.stepMain, hm]; rfl⟩
  case asst p o =>
    cases p <;> cases o <;> first
      | exact ⟨.main 0, _, by simp only [Clinic.step, Clinic.stepMain, hm, waitAsst]; rfl⟩
      | simp [Clinic.phase, hm, MainPc.phase] at htogether
  case call p k v =>
    cases p with
    | lock =>
      refine (free_or_goesOn P k (by simp [hm, MainPc.holds])).elim (fun hfree => ⟨.main 0, ?_⟩) id
      exact ⟨_, by simp only [Clinic.step, Clinic.stepMain, hm, callVisitor, acquire, hfree, if_true]; rfl⟩
    | signal =>
      by_cases hblocked : s.threads.any (·.waitsFor k) = true
      · obtain ⟨u, hu, hwaits⟩ := List.any_eq_true.1 hblocked
        obtain ⟨n, hn⟩ := List.mem_iff_getElem?.1 hu
        exact ⟨.main n, _, by simp only [Clinic.step, Clinic.stepMain, hm, callVisitor, hn, hwaits, if_true]; rfl⟩
      · have hn : s.threads[s.threads.length]? = none := List.getElem?_eq_none le_rfl
        exact ⟨.main s.threads.length, _, by
          simp only [Clinic.step, Clinic.stepMain, hm, callVisitor, hn, hblocked]; rfl⟩
    | set | count | unlock => exact ⟨.main 0, _, by simp only [Clinic.step, Clinic.stepMain, hm, callVisitor]; rfl⟩
  case enter v =>
    have hout : s.barrier.pc .main = none := by
      by_contra hin
      have hin' := P.meeting.main.1 hin
      rw [hm] at hin'
      cases hin'
    obtain ⟨b, hb⟩ := enters hout
    exact ⟨.main 0, _, by simp only [Clinic.step, Clinic.stepMain, hm, hb, Option.map_some]; rfl⟩
  case barrier v =>
    have hmain : s.barrier.inside .main := by
      by_contra hout
      simp [Clinic.phase, hm, MainPc.phase, hout] at htogether
    exact goesOn_of_met P C hm hmain hplace
  case wake p o => cases p <;> simp [Clinic.phase, hm, MainPc.phase] at htogether
  all_goals simp [Clinic.phase, hm, MainPc.phase] at htogether

/-- main and the doctor are in the barrier, and the reporter has been woken. -/
theorem handover_never_stuck_reporter : ∃ s, Reach Clinic.step (.init [⟨'R', 0, 6⟩]) s ∧ s.phase = .together ∧
    s.threads = [⟨.reporter, 6, .relock⟩] ∧ s.GoesOn := by
  obtain ⟨s, hr, hs⟩ := Trans.exists_reach_of_run Clinic.step (.init [⟨'R', 0, 6⟩]) (reporterDay.take 58)
    (fun s => s.phase == .together && s.threads == [⟨.reporter, 6, .relock⟩]) (by decide +kernel)
  have hnow : s.phase = .together ∧ s.threads = [⟨.reporter, 6, .relock⟩] := by simpa using hs
  exact ⟨s, hr, hnow.1, hnow.2, handover_never_stuck _ s hr hnow.1⟩

end Clinic

end OsLab.A6
