import Mathlib.Data.Prod.Lex
import OsLab.Lib.BinHeap
import OsLab.Lib.Trans

/-!
# The event queue (A6/event.c)

| here | there |
| --- | --- |
| `Event`, `EventQ`       | `event`, `eventQ` (event.h); `Q` is the array of 128 events |
| `eventcmp`              | `eventcmp` (:5) |
| `EventQ.heapify`        | the bottom-up build in `initEQ` (:44-54) |
| `EventQ.addevent`       | `addevent` (:59); `none`: the write behind the array |
| `EventQ.delevent`, `.nextevent`, `.emptyQ` | (:77), (:99), (:18) |

The sift loops are those of `BinHeap` with the test `eventcmp(a, b) < 0`. The test holds both ways
between equal reporters and neither way between equal doctor events, but its answers are always right
for the key (time, class), which is all the heap needs.
-/

namespace OsLab.A6

open Function (update)
open BinHeap (contents)

structure Event where
  type : Char
  time : Int
  duration : Int
deriving DecidableEq, Repr

structure EventQ where
  n : Nat
  Q : Nat → Event

def eventcmp (e1 e2 : Event) : Int :=
  if e1.time < e2.time then -1
  else if e2.time < e1.time then 1
  else if e1.type = 'R' then -1
  else if e2.type = 'R' then 1
  else if e1.type = 'P' then -1
  else if e2.type = 'P' then 1
  else if e1.type = 'S' then -1
  else if e2.type = 'S' then 1
  else 0

/-- The test of the sift loops. -/
def before (e1 e2 : Event) : Bool := decide (eventcmp e1 e2 < 0)

/-- The events `malloc` makes room for (:33). -/
def capacity : Nat := 128

namespace EventQ

def emptyQ (E : EventQ) : Bool := E.n == 0

def heapify (E : EventQ) : EventQ := { E with Q := BinHeap.heapify before E.n (E.n / 2) E.Q }

/-- `addevent` with no regard to the size of the array. -/
def enqueue (E : EventQ) (e : Event) : EventQ := ⟨E.n + 1, BinHeap.siftUp before (update E.Q E.n e) E.n⟩

def addevent (E : EventQ) (e : Event) : Option EventQ :=
  if E.n < capacity then some ⟨E.n + 1, BinHeap.siftUp before (update E.Q E.n e) E.n⟩ else none

def delevent (E : EventQ) : EventQ :=
  if 0 < E.n then ⟨E.n - 1, BinHeap.siftDown before (E.n - 1) (update E.Q 0 (E.Q (E.n - 1))) 0⟩ else E

def nextevent (E : EventQ) : Event := if E.n = 0 then ⟨'E', 0, 0⟩ else E.Q 0

/-- The stored events. -/
def events (E : EventQ) : Multiset Event := contents E.Q E.n

/-- `while (!emptyQ(E)) { e = nextevent(E); E = delevent(E); }` -/
def drain : Nat → EventQ → List Event
  | 0, _ => []
  | fuel + 1, E => if E.emptyQ then [] else E.nextevent :: drain fuel E.delevent

end EventQ

/-! ## The key -/

/-- `R` before `P` before `S` before the rest. -/
def classOf (type : Char) : Nat :=
  if type = 'R' then 0 else if type = 'P' then 1 else if type = 'S' then 2 else 3

def key (e : Event) : Int ×ₗ Nat := toLex (e.time, classOf e.type)

theorem key_le_iff (a b : Event) :
    key a ≤ key b ↔ a.time < b.time ∨ a.time = b.time ∧ classOf a.type ≤ classOf b.type :=
  Prod.Lex.toLex_le_toLex

/-- `eventcmp` answers by the key, except that it need not answer 0 on equal keys. -/
theorem before_compares : BinHeap.Compares before key where
  le a b h := by
    rw [before, decide_eq_true_eq] at h
    rw [key_le_iff]
    unfold eventcmp at h
    unfold classOf
    grind
  ge a b h := by
    rw [before, decide_eq_false_iff_not] at h
    rw [key_le_iff]
    unfold eventcmp at h
    unfold classOf
    grind

/-- Equal reporters (patients, sales reps) test smaller both ways. -/
theorem eventcmp_tie {a b : Event} (htime : a.time = b.time) (htype : a.type = b.type) (hclass : classOf a.type < 3) :
    eventcmp a b = -1 := by
  unfold eventcmp
  unfold classOf at hclass
  grind

/-! ## The operations -/

namespace EventQ

/-- The array is in heap order for the key. -/
def Ordered (E : EventQ) : Prop := BinHeap.IsHeap key E.Q E.n

variable {E E' : EventQ}

theorem heapify_events (E : EventQ) : E.heapify.events = E.events :=
  BinHeap.contents_heapify before E.Q _ (Nat.div_le_self _ _)

theorem heapify_ordered (E : EventQ) : E.heapify.Ordered := BinHeap.isHeap_heapify before_compares E.n E.Q

theorem addevent_eq_some {e : Event} : E.addevent e = some E' ↔ E.n < capacity ∧ E.enqueue e = E' := by
  rw [addevent, Option.ite_none_right_eq_some, Option.some.injEq]
  rfl

theorem enqueue_events (E : EventQ) (e : Event) : (E.enqueue e).events = e ::ₘ E.events := by
  unfold enqueue events
  rw [BinHeap.contents_siftUp before _ _ (Nat.lt_succ_self _), BinHeap.contents_succ, Function.update_self,
    BinHeap.contents_congr E.Q fun x hx => Function.update_of_ne (by omega) _ _]

theorem enqueue_ordered (hE : E.Ordered) (e : Event) : (E.enqueue e).Ordered :=
  BinHeap.isHeap_siftUp before_compares hE e

theorem addevent_events {e : Event} (h : E.addevent e = some E') : E'.events = e ::ₘ E.events :=
  (addevent_eq_some.1 h).2 ▸ enqueue_events E e

theorem addevent_ordered {e : Event} (h : E.addevent e = some E') (hE : E.Ordered) : E'.Ordered :=
  (addevent_eq_some.1 h).2 ▸ enqueue_ordered hE e

theorem nextevent_eq (h : 0 < E.n) : E.nextevent = E.Q 0 := if_neg (by omega)

theorem nextevent_mem (h : 0 < E.n) : E.nextevent ∈ E.events := by
  rw [nextevent_eq h]
  exact (BinHeap.mem_contents E.Q).2 ⟨0, h, rfl⟩

theorem nextevent_le (h : 0 < E.n) (hE : E.Ordered) {e : Event} (he : e ∈ E.events) : key E.nextevent ≤ key e := by
  obtain ⟨i, hi, rfl⟩ := (BinHeap.mem_contents E.Q).1 he
  rw [nextevent_eq h]
  exact hE.root_le hi

/-- A later event does not take the place of the next one. -/
theorem enqueue_nextevent {e : Event} (h : 0 < E.n) (hlt : key E.nextevent < key e) :
    (E.enqueue e).nextevent = E.nextevent := by
  have hbefore : before E.nextevent e = true := by
    by_contra hnot
    rw [Bool.not_eq_true] at hnot
    exact absurd (before_compares.ge _ _ hnot) (not_le.2 hlt)
  have hn : 0 < (E.enqueue e).n := Nat.succ_pos _
  rw [nextevent_eq h] at hbefore ⊢
  rw [nextevent_eq hn, enqueue]
  have hroot : update E.Q E.n e 0 = E.Q 0 := Function.update_of_ne (by omega) _ _
  show BinHeap.siftUp before (update E.Q E.n e) E.n 0 = E.Q 0
  rw [BinHeap.siftUp_root before _ _ h (by rw [hroot, Function.update_self]; exact hbefore), hroot]

theorem delevent_events (h : 0 < E.n) : E.events = E.nextevent ::ₘ E.delevent.events := by
  obtain ⟨n, Q⟩ := E
  obtain ⟨n, rfl⟩ : ∃ m, n = m + 1 := ⟨n - 1, by dsimp only at h; omega⟩
  rw [nextevent_eq h, delevent, if_pos h]
  unfold events
  dsimp only
  rw [Nat.add_sub_cancel, BinHeap.contents_succ]
  rcases Nat.eq_zero_or_pos n with rfl | hn
  · rfl
  · -- the last entry takes the place of the first
    rw [BinHeap.contents_siftDown before _ 0 hn, BinHeap.contents_update Q hn]

theorem delevent_ordered (hE : E.Ordered) : E.delevent.Ordered := by
  unfold delevent
  split
  · refine BinHeap.isHeap_siftDown before_compares (fun c hc hcn => ?_) _
    exact hE c hc (by omega)
  · exact hE

theorem delevent_empty (h : E.n = 0) : E.delevent = E := if_neg (by omega)

theorem delevent_n (E : EventQ) : E.delevent.n = E.n - 1 := by
  unfold delevent
  split
  · rfl
  · omega

/-- **Draining sorts**: the events come out by increasing key. -/
theorem drain_sorted (fuel : Nat) (hE : E.Ordered) (hn : E.n ≤ fuel) :
    (drain fuel E).Pairwise (key · ≤ key ·) ∧ (drain fuel E : Multiset Event) = E.events := by
  induction fuel generalizing E with
  | zero =>
    have h0 : E.n = 0 := by omega
    exact ⟨.nil, by rw [events, h0]; rfl⟩
  | succ fuel ih =>
    unfold drain
    split
    · rename_i hemp
      have h0 : E.n = 0 := by simpa [emptyQ] using hemp
      exact ⟨.nil, by rw [events, h0]; rfl⟩
    · rename_i hemp
      have hpos : 0 < E.n := by
        rw [emptyQ, beq_iff_eq] at hemp
        omega
      obtain ⟨hsort, hperm⟩ := ih (delevent_ordered hE) (by rw [delevent_n]; omega)
      refine ⟨List.pairwise_cons.2 ⟨fun e he => ?_, hsort⟩, ?_⟩
      · refine nextevent_le hpos hE ?_
        rw [delevent_events hpos, Multiset.mem_cons, ← hperm]
        exact .inr (Multiset.mem_coe.2 he)
      · rw [← Multiset.cons_coe, hperm, ← delevent_events hpos]

end EventQ

/-! ## Any sequence of calls -/

inductive QueueOp
  | add (e : Event) | del | next
deriving DecidableEq, Repr

/-- The queue with what has been added and deleted so far. -/
structure Session where
  q : EventQ
  added : Multiset Event
  deleted : Multiset Event

namespace Session

def start (E : EventQ) : Session := ⟨E.heapify, 0, 0⟩

/-- A call; what `delevent` is about to delete is what `nextevent` returns. -/
def step (s : Session) : QueueOp → Option Session
  | .add e => (s.q.addevent e).map fun q => { s with q := q, added := e ::ₘ s.added }
  | .del => some { s with
      q := s.q.delevent
      deleted := if s.q.emptyQ then s.deleted else s.q.nextevent ::ₘ s.deleted }
  | .next => some s

end Session

/-- What holds between the calls. -/
structure SessionInv (E : EventQ) (s : Session) : Prop where
  ordered : s.q.Ordered
  balance : s.q.events + s.deleted = E.events + s.added

namespace SessionInv

variable {E : EventQ} {s s' : Session}

theorem start (E : EventQ) : SessionInv E (.start E) :=
  ⟨E.heapify_ordered, by simp [Session.start, EventQ.heapify_events]⟩

theorem step (I : SessionInv E s) {op : QueueOp} (h : s.step op = some s') : SessionInv E s' := by
  cases op with
  | add e =>
    obtain ⟨q, hq, rfl⟩ := Option.map_eq_some_iff.1 h
    refine ⟨EventQ.addevent_ordered hq I.ordered, ?_⟩
    rw [EventQ.addevent_events hq, Multiset.cons_add, I.balance, Multiset.add_cons]
  | del =>
    cases h
    refine ⟨EventQ.delevent_ordered I.ordered, ?_⟩
    rcases Nat.eq_zero_or_pos s.q.n with h0 | hpos
    · rw [if_pos (by simp [EventQ.emptyQ, h0]), EventQ.delevent_empty h0]
      exact I.balance
    · rw [if_neg (by simp [EventQ.emptyQ]; omega), Multiset.add_cons, ← Multiset.cons_add,
        ← EventQ.delevent_events hpos]
      exact I.balance
  | next => cases h; exact I

end SessionInv

/-- **The event queue is a multiset priority queue**: after any calls on any heapified array the array is
in heap order, it stores what was there initially and added but not deleted, `nextevent` returns a
stored event of minimal key and `delevent` removes that one, so draining the queue sorts it. -/
theorem eventQ_refines (E : EventQ) (s : Session) (h : Trans.Reach Session.step (.start E) s) :
    (∀ c, 0 < c → c < s.q.n → key (s.q.Q ((c - 1) / 2)) ≤ key (s.q.Q c)) ∧
    s.q.events + s.deleted = E.events + s.added ∧
    (s.q.emptyQ = false → s.q.nextevent ∈ s.q.events ∧ (∀ e ∈ s.q.events, key s.q.nextevent ≤ key e) ∧
      s.q.delevent.events = s.q.events.erase s.q.nextevent) ∧
    (s.q.drain s.q.n).Pairwise (key · ≤ key ·) ∧ (s.q.drain s.q.n : Multiset Event) = s.q.events := by
  have I : SessionInv E s := h.inv (.start E) fun _ _ _ _ I _ hs => I.step hs
  refine ⟨I.ordered, I.balance, fun hemp => ?_, EventQ.drain_sorted _ I.ordered le_rfl⟩
  have hpos : 0 < s.q.n := by
    rw [EventQ.emptyQ, beq_eq_false_iff_ne] at hemp
    omega
  refine ⟨EventQ.nextevent_mem hpos, fun e => EventQ.nextevent_le hpos I.ordered, ?_⟩
  rw [EventQ.delevent_events hpos, Multiset.erase_cons_head]

/-- A patient and a reporter at time 5; the sales rep added at time 3 is deleted first. -/
theorem eventQ_refines_three : ∃ s : Session,
    Trans.Reach Session.step (.start ⟨2, fun i => if i = 0 then ⟨'P', 5, 10⟩ else ⟨'R', 5, 7⟩⟩) s ∧
      s.q.nextevent = ⟨'R', 5, 7⟩ ∧ s.q.drain s.q.n = [⟨'R', 5, 7⟩, ⟨'P', 5, 10⟩] ∧
      (s.q.drain s.q.n : Multiset Event) = s.q.events := by
  obtain ⟨s, hr, hs⟩ := Trans.exists_reach_of_run Session.step
    (.start ⟨2, fun i => if i = 0 then ⟨'P', 5, 10⟩ else ⟨'R', 5, 7⟩⟩) [.add ⟨'S', 3, 4⟩, .next, .del]
    (fun s => decide (s.q.nextevent = ⟨'R', 5, 7⟩ ∧ s.q.drain s.q.n = [⟨'R', 5, 7⟩, ⟨'P', 5, 10⟩])) (by decide +kernel)
  obtain ⟨hnext, hdrain⟩ := of_decide_eq_true hs
  exact ⟨s, hr, hnext, hdrain, (eventQ_refines _ s hr).2.2.2.2⟩

end OsLab.A6
