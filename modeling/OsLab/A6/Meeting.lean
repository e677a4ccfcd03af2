import OsLab.A6.Gathering
import OsLab.A6.Handshake
import OsLab.Lib.Mutex

/-!
# Where main, the doctor and the visitors are when they meet (A6/session.c)

main and the doctor stand in a `Phase` and a `Place`, of which few go together (`Paired`). The invariant of the session
has four parts, each about a few of the globals and about where the threads are: `Meeting` about the barrier, `Rousing`
about `doc_done`, `Greeting` about `asst_done`, `Calling` about the flags and the mutexes of the visitors. What a part
says stays when a thread moves on that it does not look at.
-/

namespace OsLab.A6

open Function (update)

inductive Phase
  | alone | apart | roused | together
deriving DecidableEq, Repr

/-- Where the doctor is: not created, before it takes its flag, before it sets `asst_done`, behind that, and gone. -/
inductive Place
  | unborn | resting | awake | come | gone
deriving DecidableEq, Repr

/-- What goes together, with `doc_done`. -/
def Paired : Phase → Place → Bool → Prop
  | .alone, .unborn, false => True
  | .apart, .gone, _ | .apart, .resting, false => True
  | .roused, .gone, _ | .roused, .resting, true | .roused, .awake, false | .roused, .come, false => True
  | .together, .come, false => True
  | _, _, _ => False

def DoctorPc.place (p : DoctorPc) (inside : Prop) [Decidable inside] : Place :=
  match p with
  | .unborn => .unborn
  | .lock | .test | .wait | .blocked | .relock | .take => .resting
  | .unlock | .check | .store => .awake
  | .signal | .enter => .come
  | .barrier => if inside then .come else .resting
  | .left => .gone

namespace MainPc

def phase (p : MainPc) (turn : Option Kind) (inside : Prop) [Decidable inside] : Phase :=
  match p with
  | .createDoctor => .alone
  | .wake .signal _ | .wake .unlock _ | .join _ => .roused
  | .asst .unlock (.doctor _) => .together
  | .asst _ (.doctor _) => .roused
  | .turn _ => if turn = none then .apart else .together
  | .call .. | .enter _ => .together
  | .barrier _ => if inside then .together else .apart
  | _ => .apart

/-- main waits for a visitor to set `asst_done`, and has not set it back. -/
def greets : MainPc → Bool
  | .asst .unlock _ => false
  | .asst _ (.visitor _) => true
  | _ => false

/-- main wakes the doctor for a visitor. -/
def serves : MainPc → Bool
  | .wake _ (.serve _) | .asst _ (.doctor _) => true
  | _ => false

/-- The class whose mutex main has. -/
def holds : MainPc → Option Kind
  | .call .lock _ _ => none
  | .call _ k _ => some k
  | _ => none

/-- The class whose flag main has set and whose mutex it has not given back. -/
def calls : MainPc → Option Kind
  | .call .lock _ _ | .call .set _ _ => none
  | .call _ k _ => some k
  | _ => none

def inBarrier : MainPc → Bool
  | .barrier _ => true
  | _ => false

/-- Has given the mutex of the class back and has not left the round. -/
def meets (p : MainPc) (inside : Prop) [Decidable inside] : Bool :=
  match p with
  | .enter _ => true
  | .barrier _ => decide inside
  | _ => false

/-- main is neither with a visitor nor waits for one. -/
def aside : MainPc → Bool
  | .asst .unlock (.visitor _) => true
  | .asst _ (.visitor _) | .call .. | .enter _ | .barrier _ => false
  | _ => true

theorem aside_spec {m : MainPc} (h : m.aside = true) :
    m.greets = false ∧ m.holds = none ∧ m.calls = none ∧ m.inBarrier = false ∧
      ∀ (inside : Prop) [Decidable inside], m.meets inside = false := by
  cases m with
  | asst p a => cases p <;> cases a <;> first | exact ⟨rfl, rfl, rfl, rfl, fun _ _ => rfl⟩ | cases h
  | call | enter | barrier => cases h
  | _ => exact ⟨rfl, rfl, rfl, rfl, fun _ _ => rfl⟩

theorem phase_congr {m : MainPc} {turn : Option Kind} {p q : Prop} [Decidable p] [Decidable q] (h : p ↔ q) :
    m.phase turn p = m.phase turn q := by
  obtain rfl := propext h
  congr!

theorem meets_congr {m : MainPc} {p q : Prop} [Decidable p] [Decidable q] (h : p ↔ q) : m.meets p = m.meets q := by
  obtain rfl := propext h
  congr!

theorem phase_of_meets {m : MainPc} (turn : Option Kind) {inside : Prop} [Decidable inside] (h : m.meets inside = true) :
    m.phase turn inside = .together := by
  cases m with
  | enter v => rfl
  | barrier v => exact if_pos (of_decide_eq_true h)
  | _ => cases h

theorem holds_of_calls {m : MainPc} {k : Kind} (h : m.calls = some k) : m.holds = some k := by
  cases m with
  | call p l v => cases p <;> first | exact h | cases h
  | _ => cases h

end MainPc

theorem DoctorPc.place_congr {d : DoctorPc} {p q : Prop} [Decidable p] [Decidable q] (h : p ↔ q) :
    d.place p = d.place q := by
  obtain rfl := propext h
  congr!

namespace VisitorPc

/-- Has not set `asst_done` yet. -/
def unheard : VisitorPc → Bool
  | .lock | .store => true
  | _ => false

/-- Has the mutex of its class. -/
def holds : VisitorPc → Bool
  | .store | .signal | .test | .wait | .take | .visit | .unlock => true
  | _ => false

/-- Has taken its flag and has not left the round. -/
def seen (p : VisitorPc) (inside : Prop) [Decidable inside] : Bool :=
  match p with
  | .visit | .unlock | .enter => true
  | .barrier => decide inside
  | _ => false

end VisitorPc

/-! ## The four parts -/

/-- Who is in `pthread_barrier_wait`. -/
structure Meeting (b : PthreadBarrier Party) (m : MainPc) (d : DoctorPc) (ts : List Thread) : Prop where
  gathers : ∃ I, b.Gathers 3 I
  main : b.pc .main ≠ none ↔ m.inBarrier = true
  doctor : b.pc .doctor ≠ none ↔ d = .barrier
  visitor : ∀ j, b.pc (.visitor j) ≠ none ↔ ∃ t, ts[j]? = some t ∧ t.pc = .barrier

/-- The doctor and main. -/
structure Rousing (phase : Phase) (m : MainPc) (turn : Option Kind) (d : DoctorPc) (place : Place) (docDone : Bool) :
    Prop where
  paired : Paired phase place docDone
  take : d = .take → docDone = true
  wanted : m.serves = true → turn ≠ none

/-- `asst_done`: a thread that has not set it is the one that main waits for. -/
structure Greeting (phase : Phase) (m : MainPc) (place : Place) (asstDone : Bool) (ts : List Thread) : Prop where
  flag : asstDone = true → m.greets = true ∨ phase = .roused ∧ place = .come
  clear : ∀ a, m = .asst .clear a → asstDone = true
  unheard : ∀ t ∈ ts, t.pc.unheard = true → m.greets = true ∧ asstDone = false
  one : ts.countP (·.pc.unheard) ≤ 1

/-- Thread `j` has taken its flag and has not left the round. -/
def Seen (b : PthreadBarrier Party) (ts : List Thread) (j : Nat) : Prop :=
  ∃ t, ts[j]? = some t ∧ t.pc.seen (b.inside (.visitor j)) = true

/-- Who is between the lock and the unlock of the mutex of a class; `holds` is the class whose mutex main has. -/
def Critical (holds : Option Kind) (ts : List Thread) (k : Kind) : Party → Prop
  | .main => holds = some k
  | .doctor => False
  | .visitor j => ∃ t, ts[j]? = some t ∧ t.kind = k ∧ t.pc.holds = true

/-- The flags of the visitors and their mutexes. -/
structure Calling (holds calls : Option Kind) (meets : Bool) (seen : Nat → Prop) (ts : List Thread)
    (mutex : Kind → Option Party) (done : Kind → Bool) : Prop where
  guards : Guards mutex (Critical holds ts)
  take : ∀ (j : Nat) (t : Thread), ts[j]? = some t → t.pc = .take → done t.kind = true
  set : ∀ k, calls = some k → done k = true
  called : ∀ k, done k = true → (∀ l, done l = true → l = k) ∧ (∀ j, ¬ seen j) ∧ (calls = some k ∨ meets = true)
  seen : ∀ j, seen j → (∀ i, seen i → i = j) ∧ meets = true

/-! ## A visitor moves on -/

section
variable {ts : List Thread} {i : Nat} {t : Thread}

theorem getElem?_goto (h : ts[i]? = some t) (u : Thread) (j : Nat) :
    (ts.set i u)[j]? = if j = i then some u else ts[j]? := by
  have hi := (List.getElem?_eq_some_iff.1 h).1
  rw [List.getElem?_set]
  by_cases e : i = j
  · simp [e, e ▸ hi]
  · simp [e, Ne.symm e]

theorem exists_goto (h : ts[i]? = some t) (u : Thread) (j : Nat) (Q : Thread → Prop) :
    (∃ v, (ts.set i u)[j]? = some v ∧ Q v) ↔ if j = i then Q u else ∃ v, ts[j]? = some v ∧ Q v := by
  rw [getElem?_goto h]
  split_ifs <;> simp

theorem critical_goto {holds : Option Kind} (h : ts[i]? = some t) (p : VisitorPc) (k : Kind) (q : Party) :
    Critical holds (ts.set i { t with pc := p }) k q ↔
      if q = .visitor i then t.kind = k ∧ p.holds = true else Critical holds ts k q := by
  cases q with
  | main | doctor => simp [Critical]
  | visitor j =>
    rw [Critical, exists_goto h]
    by_cases e : j = i
    · simp [e]
    · simp [e, Critical]

theorem seen_goto {b : PthreadBarrier Party} (h : ts[i]? = some t) (p : VisitorPc) (j : Nat) :
    Seen b (ts.set i { t with pc := p }) j ↔
      if j = i then p.seen (b.inside (.visitor i)) = true else Seen b ts j := by
  rw [Seen, exists_goto h]
  split_ifs with e
  · rw [e]
  · rfl

end

namespace Calling

variable {holds calls : Option Kind} {meets : Bool} {seen seen' : Nat → Prop} {ts : List Thread}
  {mutex : Kind → Option Party} {done : Kind → Bool} {i : Nat} {t : Thread} {p : VisitorPc} {k : Kind}

/-- The mutex excludes. -/
theorem unique (C : Calling holds calls meets seen ts mutex done) {j : Nat} {u : Thread} (ht : ts[i]? = some t)
    (hu : ts[j]? = some u) (hheld : t.pc.holds = true) (hheld' : u.pc.holds = true) (hkind : u.kind = t.kind) : j = i := by
  have hi : Critical holds ts t.kind (.visitor i) := ⟨t, ht, rfl, hheld⟩
  have hj : Critical holds ts t.kind (.visitor j) := ⟨u, hu, hkind, hheld'⟩
  injection C.guards.unique hj hi

theorem congr (C : Calling holds calls meets seen ts mutex done) (h : ∀ j, seen' j ↔ seen j) :
    Calling holds calls meets seen' ts mutex done := by
  obtain rfl : seen' = seen := funext fun j => propext (h j)
  exact C

/-- No other visitor gets to its flag. -/
theorem take_goto (C : Calling holds calls meets seen ts mutex done) (ht : ts[i]? = some t)
    (htake : p = .take → done t.kind = true) (j : Nat) (u : Thread) (hu : (ts.set i { t with pc := p })[j]? = some u)
    (hpc : u.pc = .take) : done u.kind = true := by
  rw [getElem?_goto ht] at hu
  split_ifs at hu with e
  · cases hu
    exact htake hpc
  · exact C.take j u hu hpc

/-- Neither the mutex nor the flag is touched. -/
theorem goto (C : Calling holds calls meets seen ts mutex done) (ht : ts[i]? = some t) (hheld : p.holds = t.pc.holds)
    (htake : p = .take → done t.kind = true) (hseen : ∀ j, seen' j ↔ seen j) :
    Calling holds calls meets seen' (ts.set i { t with pc := p }) mutex done where
  guards := C.guards.congr fun l q => by
    rw [critical_goto ht]
    split_ifs with e
    · simp [e, Critical, ht, hheld]
    · rfl
  take := C.take_goto ht htake
  set := C.set
  called := (C.congr hseen).called
  seen := (C.congr hseen).seen

theorem lock (C : Calling holds calls meets seen ts mutex done) (ht : ts[i]? = some t) (hfree : mutex t.kind = none)
    (hout : t.pc.holds = false) (hheld : p.holds = true) (htake : p ≠ .take) (hseen : ∀ j, seen' j ↔ seen j) :
    Calling holds calls meets seen' (ts.set i { t with pc := p }) (update mutex t.kind (some (.visitor i))) done where
  guards := C.guards.acquire hfree fun l q => by
    rw [critical_goto ht]
    split_ifs with e
    · rw [e]
      simpa [Critical, ht, hout, hheld] using eq_comm
    · simp [e]
  take := C.take_goto ht fun h => absurd h htake
  set := C.set
  called := (C.congr hseen).called
  seen := (C.congr hseen).seen

theorem unlock (C : Calling holds calls meets seen ts mutex done) (ht : ts[i]? = some t) (hheld : t.pc.holds = true)
    (hout : p.holds = false) (htake : p ≠ .take) (hseen : ∀ j, seen' j ↔ seen j) :
    Calling holds calls meets seen' (ts.set i { t with pc := p }) (update mutex t.kind none) done where
  guards := C.guards.release fun l q => by
    rw [critical_goto ht]
    split_ifs with e
    · rw [e]
      simpa [Critical, ht, hheld, hout] using fun h : l ≠ t.kind => h.symm
    · refine (and_iff_right_of_imp fun h hl => ?_).symm
      subst hl
      have hi : Critical holds ts t.kind (.visitor i) := ⟨t, ht, rfl, hheld⟩
      exact e (C.guards.unique h hi)
  take := C.take_goto ht fun h => absurd h htake
  set := C.set
  called := (C.congr hseen).called
  seen := (C.congr hseen).seen

/-- A visitor takes its flag: main has given the mutex back. -/
theorem taken (C : Calling holds calls meets seen ts mutex done) (ht : ts[i]? = some t) (hpc : t.pc = .take)
    (hcalls : ∀ k, calls = some k → holds = some k) (hseen : ∀ j, seen' j ↔ j = i ∨ seen j) :
    Calling holds calls meets seen' (ts.set i { t with pc := .visit }) mutex (update done t.kind false) := by
  have hdone := C.take i t ht hpc
  have hheld : t.pc.holds = true := by rw [hpc]; rfl
  obtain ⟨honly, hnobody, hcalled⟩ := C.called t.kind hdone
  have hnot : calls ≠ some t.kind := by
    intro hc
    have hi : Critical holds ts t.kind (.visitor i) := ⟨t, ht, rfl, hheld⟩
    have hm : Critical holds ts t.kind .main := hcalls _ hc
    cases C.guards.unique hm hi
  have hmeets : meets = true := hcalled.resolve_left hnot
  have hnone : ∀ l, update done t.kind false l = false := by
    intro l
    by_cases hl : l = t.kind
    · simp [hl]
    · rw [Function.update_of_ne hl]
      exact Bool.eq_false_iff.2 fun h => hl (honly l h)
  refine ⟨C.guards.congr fun l q => ?_, fun j u hu hpc' => ?_, fun l hl => ?_, fun l hl => ?_,
    fun j hj => ⟨fun m hm => ?_, hmeets⟩⟩
  · rw [critical_goto ht]
    split_ifs with e
    · rw [e]
      simp [Critical, ht, hheld, show VisitorPc.visit.holds = true from rfl]
    · rfl
  · rw [getElem?_goto ht] at hu
    split_ifs at hu with e
    · cases hu
      cases hpc'
    · have hkind := honly _ (C.take j u hu hpc')
      exact absurd (C.unique ht hu hheld (by rw [hpc']; rfl) hkind) e
  · have hkind := honly l (C.set l hl)
    exact absurd (hkind ▸ hl) hnot
  · rw [hnone l] at hl
    cases hl
  · have hi := ((hseen j).1 hj).resolve_right (hnobody j)
    have hm' := ((hseen m).1 hm).resolve_right (hnobody m)
    rw [hi, hm']

/-! ## main moves on -/

theorem mainLock (C : Calling none none false seen ts mutex done) (hfree : mutex k = none) :
    Calling (some k) none false seen ts (update mutex k (some .main)) done where
  guards := C.guards.acquire hfree fun l q => by
    cases q with
    | main => simpa [Critical] using eq_comm
    | doctor => simp [Critical]
    | visitor j => simp [Critical]
  take := C.take
  set l hl := by cases hl
  called l hl := by simpa using (C.called l hl).2.2
  seen j hj := by simpa using (C.seen j hj).2

/-- Nobody has been called. -/
theorem quiet (C : Calling holds none false seen ts mutex done) : (∀ k, done k = false) ∧ ∀ j, ¬ seen j := by
  refine ⟨fun k => Bool.eq_false_iff.2 fun hk => ?_, fun j hj => ?_⟩
  · simpa using (C.called k hk).2.2
  · simpa using (C.seen j hj).2

theorem mainSet (C : Calling (some k) none false seen ts mutex done) :
    Calling (some k) (some k) false seen ts mutex (update done k true) := by
  obtain ⟨hflags, hnobody⟩ := C.quiet
  have honly : ∀ l, update done k true l = true → l = k := by
    intro l hl
    by_contra hne
    rw [Function.update_of_ne hne, hflags] at hl
    cases hl
  refine ⟨C.guards, fun j t ht hpc => ?_, fun l hl => ?_, fun l hl => ?_, fun j hj => absurd hj (hnobody j)⟩
  · have hdone := C.take j t ht hpc
    rw [hflags] at hdone
    cases hdone
  · cases hl
    exact Function.update_self k true done
  · obtain rfl := honly l hl
    exact ⟨honly, hnobody, .inl rfl⟩

theorem mainUnlock (C : Calling (some k) (some k) false seen ts mutex done) :
    Calling none none true seen ts (update mutex k none) done where
  guards := C.guards.release fun l q => by
    cases q with
    | main => simpa [Critical] using fun h : l ≠ k => h.symm
    | doctor => simp [Critical]
    | visitor j =>
      refine (and_iff_right_of_imp fun h hl => ?_).symm
      subst hl
      have hm : Critical (some l) ts l .main := rfl
      have hj : Critical (some l) ts l (.visitor j) := h
      cases C.guards.unique hj hm
  take := C.take
  set l hl := by cases hl
  called l hl := ⟨(C.called l hl).1, (C.called l hl).2.1, .inr rfl⟩
  seen j hj := by simpa using (C.seen j hj).2

theorem getElem?_concat {u : Thread} (hu : (ts ++ [t])[i]? = some u) : ts[i]? = some u ∨ i = ts.length ∧ u = t := by
  rw [List.getElem?_append] at hu
  split_ifs at hu with hi
  · exact .inl hu
  · rw [List.getElem?_singleton] at hu
    split_ifs at hu with hi'
    cases hu
    exact .inr ⟨by omega, rfl⟩

/-- The new thread has no mutex. -/
theorem concat (C : Calling holds calls meets seen ts mutex done) (hpc : t.pc = .lock) (hseen : ∀ j, seen' j ↔ seen j) :
    Calling holds calls meets seen' (ts ++ [t]) mutex done where
  guards := C.guards.congr fun l q => by
    cases q with
    | main | doctor => rfl
    | visitor j =>
      refine exists_congr fun u => ⟨fun ⟨hu, h⟩ => ⟨?_, h⟩, fun ⟨hu, h⟩ => ⟨?_, h⟩⟩
      · refine (getElem?_concat hu).resolve_right ?_
        rintro ⟨-, rfl⟩
        have hheld := h.2
        rw [hpc] at hheld
        cases hheld
      · rw [List.getElem?_append_left (List.getElem?_eq_some_iff.1 hu).1, hu]
  take j u hu hpc' := by
    refine C.take j u ((getElem?_concat hu).resolve_right ?_) hpc'
    rintro ⟨-, rfl⟩
    rw [hpc] at hpc'
    cases hpc'
  set := C.set
  called := (C.congr hseen).called
  seen := (C.congr hseen).seen

/-- The round is over. -/
theorem tripped (C : Calling none none meets seen ts mutex done) {j : Nat} (hj : seen j) (hseen : ∀ i, ¬ seen' i) :
    Calling none none false seen' ts mutex done :=
  ⟨C.guards, C.take, fun k hk => (by cases hk), fun k hk => absurd hj ((C.called k hk).2.1 j), fun i hi => absurd hi (hseen i)⟩

end Calling

theorem seen_concat {b : PthreadBarrier Party} {ts : List Thread} {t : Thread} (hpc : t.pc = .lock) (j : Nat) :
    Seen b (ts ++ [t]) j ↔ Seen b ts j := by
  constructor
  · rintro ⟨u, hu, hseen⟩
    refine ⟨u, (Calling.getElem?_concat hu).resolve_right ?_, hseen⟩
    rintro ⟨-, rfl⟩
    rw [hpc] at hseen
    cases hseen
  · rintro ⟨u, hu, hseen⟩
    exact ⟨u, by rw [List.getElem?_append_left (List.getElem?_eq_some_iff.1 hu).1, hu], hseen⟩

/-- Nobody gets in or out. -/
theorem seen_barrier {b b' : PthreadBarrier Party} {ts : List Thread} {j : Nat}
    (h : b'.inside (.visitor j) ↔ b.inside (.visitor j)) : Seen b' ts j ↔ Seen b ts j := by
  simp only [Seen, VisitorPc.seen, h]

namespace Meeting

variable {b b' : PthreadBarrier Party} {m : MainPc} {d : DoctorPc} {ts : List Thread} {i j : Nat} {t : Thread}
  {p : VisitorPc}

theorem goto (M : Meeting b m d ts) (ht : ts[i]? = some t) (hp : p ≠ .barrier) (ht' : t.pc ≠ .barrier) :
    Meeting b m d (ts.set i { t with pc := p }) where
  gathers := M.gathers
  main := M.main
  doctor := M.doctor
  visitor j := by
    rw [exists_goto ht, M.visitor]
    split_ifs with e
    · simp [e, ht, hp, ht']
    · rfl

theorem concat (M : Meeting b m d ts) (hpc : t.pc = .lock) : Meeting b m d (ts ++ [t]) where
  gathers := M.gathers
  main := M.main
  doctor := M.doctor
  visitor j := by
    rw [M.visitor]
    constructor
    · rintro ⟨u, hu, hb⟩
      exact ⟨u, by rw [List.getElem?_append_left (List.getElem?_eq_some_iff.1 hu).1, hu], hb⟩
    · rintro ⟨u, hu, hb⟩
      refine ⟨u, (Calling.getElem?_concat hu).resolve_right ?_, hb⟩
      rintro ⟨-, rfl⟩
      rw [hpc] at hb
      cases hb

/-- What main does with the barrier. -/
theorem ofMain {m' : MainPc} (M : Meeting b m d ts) (hg : ∃ I, b'.Gathers 3 I)
    (hpc : ∀ q, q ≠ .main → (b'.pc q = none ↔ b.pc q = none)) (hmain : b'.pc .main ≠ none ↔ m'.inBarrier = true) :
    Meeting b' m' d ts :=
  ⟨hg, hmain, (not_congr (hpc _ (by simp))).trans M.doctor, fun j => (not_congr (hpc _ (by simp))).trans (M.visitor j)⟩

theorem ofDoctor {d' : DoctorPc} (M : Meeting b m d ts) (hg : ∃ I, b'.Gathers 3 I)
    (hpc : ∀ q, q ≠ .doctor → (b'.pc q = none ↔ b.pc q = none)) (hdoctor : b'.pc .doctor ≠ none ↔ d' = .barrier) :
    Meeting b' m d' ts :=
  ⟨hg, (not_congr (hpc _ (by simp))).trans M.main, hdoctor, fun j => (not_congr (hpc _ (by simp))).trans (M.visitor j)⟩

theorem ofVisitor (M : Meeting b m d ts) (hg : ∃ I, b'.Gathers 3 I) (ht : ts[i]? = some t)
    (hpc : ∀ q, q ≠ .visitor i → (b'.pc q = none ↔ b.pc q = none)) (hvisitor : b'.pc (.visitor i) ≠ none ↔ p = .barrier) :
    Meeting b' m d (ts.set i { t with pc := p }) where
  gathers := hg
  main := (not_congr (hpc _ (by simp))).trans M.main
  doctor := (not_congr (hpc _ (by simp))).trans M.doctor
  visitor j := by
    rw [exists_goto ht]
    split_ifs with e
    · rw [e]
      exact hvisitor
    · exact (not_congr (hpc _ (by simpa using e))).trans (M.visitor j)

/-- A visitor that is inside has been seen. -/
theorem seen_of_inside (M : Meeting b m d ts) (h : b.inside (.visitor j)) : Seen b ts j := by
  obtain ⟨t, ht, hpc⟩ := (M.visitor j).1 h.1
  exact ⟨t, ht, by rw [hpc]; exact decide_eq_true h⟩

/-- The three of a round. -/
theorem insides (M : Meeting b m d ts) {I : Finset Party} (hI : ∀ q, q ∈ I ↔ b.inside q)
    (hone : ∀ j, Seen b ts j → ∀ i, Seen b ts i → i = j) :
    ∃ j, (∀ i, Seen b ts i → i = j) ∧ I ⊆ {.main, .doctor, .visitor j} := by
  obtain ⟨j, hj⟩ : ∃ j, ∀ i, Seen b ts i → i = j := by
    by_cases h : ∃ j, Seen b ts j
    · exact ⟨h.choose, hone _ h.choose_spec⟩
    · exact ⟨0, fun i hi => absurd ⟨i, hi⟩ h⟩
  refine ⟨j, hj, fun q hq => ?_⟩
  have hin := (hI q).1 hq
  cases q with
  | main => simp
  | doctor => simp
  | visitor i => simp [hj i (M.seen_of_inside hin)]

/-- There is room for the third. -/
theorem card_lt (M : Meeting b m d ts) {I : Finset Party} (hI : ∀ q, q ∈ I ↔ b.inside q)
    (hone : ∀ j, Seen b ts j → ∀ i, Seen b ts i → i = j) {q : Party} (hq : ¬ b.inside q)
    (hvisitor : ∀ i, q = .visitor i → Seen b ts i) : I.card < 3 := by
  obtain ⟨j, hj, hsub⟩ := M.insides hI hone
  have hmem : q ∈ ({.main, .doctor, .visitor j} : Finset Party) := by
    cases q with
    | main => simp
    | doctor => simp
    | visitor i => simp [hj i (hvisitor i rfl)]
  have hlt : I.card < ({.main, .doctor, .visitor j} : Finset Party).card :=
    Finset.card_lt_card ((Finset.ssubset_iff_of_subset hsub).2 ⟨q, hmem, fun h => hq ((hI q).1 h)⟩)
  exact hlt.trans_le Finset.card_le_three

/-- When the barrier trips, main, the doctor and a visitor are inside. -/
theorem all_inside (M : Meeting b m d ts) {I : Finset Party} (hI : ∀ q, q ∈ I ↔ b.inside q) (hcard : I.card = 3)
    (hone : ∀ j, Seen b ts j → ∀ i, Seen b ts i → i = j) :
    b.inside .main ∧ b.inside .doctor ∧ ∃ j, b.inside (.visitor j) := by
  obtain ⟨j, -, hsub⟩ := M.insides hI hone
  have heq : I = {.main, .doctor, .visitor j} :=
    Finset.eq_of_subset_of_card_le hsub (Finset.card_le_three.trans hcard.ge)
  exact ⟨(hI _).1 (by simp [heq]), (hI _).1 (by simp [heq]), j, (hI _).1 (by simp [heq])⟩

end Meeting

namespace Greeting

variable {phase phase' : Phase} {m m' : MainPc} {place place' : Place} {asstDone : Bool} {ts : List Thread} {i : Nat}
  {t : Thread} {p : VisitorPc}

/-- The flag is not touched. -/
theorem congr (G : Greeting phase m place asstDone ts) (hgreets : m'.greets = m.greets)
    (hclear : ∀ a, m' = .asst .clear a → asstDone = true)
    (hcome : asstDone = true → phase = .roused → place = .come → phase' = .roused ∧ place' = .come) :
    Greeting phase' m' place' asstDone ts :=
  ⟨fun h => (G.flag h).imp (hgreets.trans ·) fun hc => hcome h hc.1 hc.2, hclear,
    fun t ht hu => by rw [hgreets]; exact G.unheard t ht hu, G.one⟩

theorem countP_goto (ht : ts[i]? = some t) (p : VisitorPc) :
    (ts.set i { t with pc := p }).countP (·.pc.unheard) + t.pc.unheard.toNat =
      ts.countP (·.pc.unheard) + p.unheard.toNat := by
  obtain ⟨hi, hget⟩ := List.getElem?_eq_some_iff.1 ht
  have hle : (if t.pc.unheard = true then 1 else 0) ≤ ts.countP (·.pc.unheard) := by
    split_ifs with hu
    · exact List.countP_pos_iff.2 ⟨t, List.mem_of_getElem? ht, hu⟩
    · exact Nat.zero_le _
  rw [List.countP_set hi, hget]
  revert hle
  cases t.pc.unheard <;> cases p.unheard <;>
    simp only [if_true, Bool.false_eq_true, if_false, Bool.toNat_true, Bool.toNat_false] <;> omega

theorem goto (G : Greeting phase m place asstDone ts) (ht : ts[i]? = some t) (hp : p.unheard = t.pc.unheard) :
    Greeting phase m place asstDone (ts.set i { t with pc := p }) where
  flag := G.flag
  clear := G.clear
  unheard u hu hlate := by
    rcases List.mem_or_eq_of_mem_set hu with hu | rfl
    · exact G.unheard u hu hlate
    · exact G.unheard t (List.mem_of_getElem? ht) (hp ▸ hlate)
  one := by
    have hcount := countP_goto ht p
    rw [hp] at hcount
    have hone := G.one
    omega

/-- main creates a thread and waits for it. -/
theorem concat (G : Greeting .apart m place asstDone ts) (hm : m.greets = false) (hpc : t.pc = .lock) (k : Kind) :
    Greeting .apart (.asst .lock (.visitor k)) place asstDone (ts ++ [t]) := by
  have hflag : asstDone = false := by
    by_contra h
    rcases G.flag (by simpa using h) with hg | ⟨hr, -⟩
    · rw [hm] at hg
      cases hg
    · cases hr
  have hnone : ts.countP (·.pc.unheard) = 0 := by
    rw [List.countP_eq_zero]
    intro u hu hlate
    have hg := (G.unheard u hu hlate).1
    rw [hm] at hg
    cases hg
  refine ⟨fun _ => .inl rfl, fun a ha => (by cases ha), fun _ _ _ => ⟨rfl, hflag⟩, ?_⟩
  rw [List.countP_append, hnone, List.countP_singleton, hpc]
  exact le_rfl

/-- The visitor that main waits for sets the flag. -/
theorem store (G : Greeting phase m place asstDone ts) (ht : ts[i]? = some t) (hpc : t.pc = .store) :
    Greeting phase m place true (ts.set i { t with pc := .signal }) := by
  have hcount := countP_goto ht .signal
  have hone := G.one
  rw [hpc] at hcount
  have hnone : (ts.set i { t with pc := .signal }).countP (·.pc.unheard) = 0 := by
    simp only [show VisitorPc.store.unheard = true from rfl, show VisitorPc.signal.unheard = false from rfl,
      Bool.toNat_true, Bool.toNat_false] at hcount
    omega
  refine ⟨fun _ => .inl (G.unheard t (List.mem_of_getElem? ht) (by rw [hpc]; rfl)).1, fun _ _ => rfl, fun u hu hlate => ?_,
    by omega⟩
  exact absurd hlate (List.countP_eq_zero.1 hnone u hu)

/-- Nobody is to set the flag. -/
theorem heard (G : Greeting phase m place asstDone ts) (h : m.greets = true → asstDone = true) :
    ∀ t ∈ ts, t.pc.unheard = false := by
  intro t ht
  by_contra hu
  obtain ⟨hgreets, hflag⟩ := G.unheard t ht (by simpa using hu)
  rw [h hgreets] at hflag
  cases hflag

end Greeting

/-! ## A signal -/

/-- What `pthread_cond_signal(&asst_cond)` does to main. -/
def MainPc.wakeAsst : MainPc → MainPc
  | .asst .blocked a => .asst .relock a
  | p => p

/-- It is not seen from outside. -/
theorem wakeAsst_spec (m : MainPc) :
    m.wakeAsst.greets = m.greets ∧ m.wakeAsst.serves = m.serves ∧ m.wakeAsst.holds = m.holds ∧
      m.wakeAsst.calls = m.calls ∧ m.wakeAsst.inBarrier = m.inBarrier ∧
      (∀ (turn : Option Kind) (inside : Prop) [Decidable inside], m.wakeAsst.phase turn inside = m.phase turn inside) ∧
      (∀ (inside : Prop) [Decidable inside], m.wakeAsst.meets inside = m.meets inside) ∧
      ∀ a, m.wakeAsst = .asst .clear a ↔ m = .asst .clear a := by
  cases m with
  | asst p a =>
    cases p <;> cases a <;>
      exact ⟨rfl, rfl, rfl, rfl, rfl, fun _ _ _ => rfl, fun _ _ => rfl, fun b => by simp [MainPc.wakeAsst]⟩
  | _ => exact ⟨rfl, rfl, rfl, rfl, rfl, fun _ _ _ => rfl, fun _ _ => rfl, fun b => by simp [MainPc.wakeAsst]⟩

end OsLab.A6
