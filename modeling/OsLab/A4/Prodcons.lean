import Mathlib.Algebra.BigOperators.Group.List.Basic
import Mathlib.Algebra.Ring.Int.Defs
import Mathlib.Data.List.Infix
import OsLab.Lib.Trans

/-!
# The mailbox of the producer and its consumers (A4/prodcons_21CS30009.c)

`M[0]` is the address of the mailbox (`i` for consumer `i`), its empty flag (0) and the shutdown flag
(-1) in one, `M[1]` is the payload.

| here | there |
|---|---|
| `Production` | one round's `item` and `consumer` (:75-76), any sequence of them |
| `ProdPc`, `producer` | the loads and stores of the production loop and of the shutdown (:74-97) |
| `ConsPc`, `consumer` | the loads and stores of consumer `i`'s loop (:52-61) |
| `sent`, `took` | not in the source: what was addressed so far, and who added which value, in order |

Each step is one load or store of `M[0]` or `M[1]`, in any order of the processes; what a process does
to its own variables goes with its next load or store. The `printf` of a `VERBOSE` build and the delay
of a `SLEEP` build are left out. `exactlyOnce_of_reach`: every production is consumed once, by the
consumer it was made for, before the next one is addressed.
-/

namespace OsLab.A4

open Function (update)
open Trans (Reach ReachIf)

variable {n : Nat}

structure Production (n : Nat) where
  item : Int
  consumer : Fin n
  deriving DecidableEq

/-- Consumer `i`'s number in `M[0]`: they count from 1 (:46). -/
def number (i : Fin n) : Int := i.val + 1

theorem number_ne_zero (i : Fin n) : number i ≠ 0 := by unfold number; omega

theorem number_ne_stop (i : Fin n) : number i ≠ -1 := by unfold number; omega

@[simp] theorem number_inj {i j : Fin n} : number i = number j ↔ i = j := by
  unfold number; omega

inductive ProdPc (n : Nat) where
  /-- `while(M[0]!= 0) {}` with a production in hand. -/
  | spin (p : Production n)
  /-- `M[0] = consumer` -/
  | address (p : Production n)
  /-- `M[1] = item` -/
  | payload (p : Production n)
  /-- `cons_itemc[consumer] += 1; cons_checksum[consumer] += M[1]` -/
  | tally (p : Production n)
  /-- `while (M[0] != 0)` after the last production. -/
  | drain
  /-- `M[0] = -1` -/
  | stop
  | done
  deriving DecidableEq

inductive ConsPc where
  /-- `while(M[0] != -1)` -/
  | test
  /-- `if(M[0] == i)` -/
  | cmp
  /-- `itemc += 1; checksum += M[1]` -/
  | add
  /-- `M[0] = 0` -/
  | clear
  | done
  deriving DecidableEq

structure Prodcons (n : Nat) where
  m0 : Int
  m1 : Int
  /-- The productions of the rounds to come. -/
  todo : List (Production n)
  ppc : ProdPc n
  consItemc : Fin n → Nat
  consChecksum : Fin n → Int
  cpc : Fin n → ConsPc
  itemc : Fin n → Nat
  checksum : Fin n → Int
  sent : List (Production n)
  took : List (Production n)

/-- The head of the `for` loop (:74): the next round, or the shutdown. -/
def Prodcons.nextRound (s : Prodcons n) : Prodcons n :=
  match s.todo with
  | [] => { s with ppc := .drain }
  | p :: todo => { s with ppc := .spin p, todo := todo }

/-- `M[0] = 0`, the segment is zeroed, the consumers are forked (:35-46). -/
def Prodcons.init (draws : List (Production n)) : Prodcons n :=
  Prodcons.nextRound {
    m0 := 0, m1 := 0, todo := draws, ppc := .drain
    consItemc := fun _ => 0, consChecksum := fun _ => 0
    cpc := fun _ => .test, itemc := fun _ => 0, checksum := fun _ => 0
    sent := [], took := [] }

inductive Proc (n : Nat) where
  | producer
  | consumer (i : Fin n)
  deriving DecidableEq

namespace Prodcons

def goto (s : Prodcons n) (i : Fin n) (pc : ConsPc) : Prodcons n := { s with cpc := update s.cpc i pc }

/-- One load or store of the producer. -/
def producer (s : Prodcons n) : Option (Prodcons n) :=
  match s.ppc with
  | .spin p => some (if s.m0 ≠ 0 then s else { s with ppc := .address p })
  | .address p => some { s with m0 := number p.consumer, ppc := .payload p, sent := s.sent ++ [p] }
  | .payload p => some { s with m1 := p.item, ppc := .tally p }
  | .tally p => some <| nextRound { s with
      consItemc := update s.consItemc p.consumer (s.consItemc p.consumer + 1)
      consChecksum := update s.consChecksum p.consumer (s.consChecksum p.consumer + s.m1) }
  | .drain => some (if s.m0 ≠ 0 then s else { s with ppc := .stop })
  | .stop => some { s with m0 := -1, ppc := .done }
  | .done => none

/-- One load or store of consumer `i`. -/
def consumer (s : Prodcons n) (i : Fin n) : Option (Prodcons n) :=
  match s.cpc i with
  | .test => some (s.goto i (if s.m0 ≠ -1 then .cmp else .done))
  | .cmp => some (s.goto i (if s.m0 = number i then .add else .test))
  | .add => some <| goto { s with
      itemc := update s.itemc i (s.itemc i + 1)
      checksum := update s.checksum i (s.checksum i + s.m1)
      took := s.took ++ [⟨s.m1, i⟩] } i .clear
  | .clear => some (goto { s with m0 := 0 } i .test)
  | .done => none

def step (s : Prodcons n) : Proc n → Option (Prodcons n)
  | .producer => s.producer
  | .consumer i => s.consumer i

/-- The productions that have not been addressed yet. -/
def left (s : Prodcons n) : List (Production n) :=
  match s.ppc with
  | .spin p | .address p => p :: s.todo
  | _ => s.todo

/-- The productions the producer has counted. -/
def tallied (s : Prodcons n) : List (Production n) :=
  match s.ppc with
  | .payload _ | .tally _ => s.sent.dropLast
  | _ => s.sent

@[simp] theorem goto_cpc (s : Prodcons n) (i : Fin n) (pc : ConsPc) : (s.goto i pc).cpc = update s.cpc i pc := rfl

@[simp] theorem goto_m0 (s : Prodcons n) (i : Fin n) (pc : ConsPc) : (s.goto i pc).m0 = s.m0 := rfl

@[simp] theorem goto_ppc (s : Prodcons n) (i : Fin n) (pc : ConsPc) : (s.goto i pc).ppc = s.ppc := rfl

@[simp] theorem goto_sent (s : Prodcons n) (i : Fin n) (pc : ConsPc) : (s.goto i pc).sent = s.sent := rfl

@[simp] theorem goto_took (s : Prodcons n) (i : Fin n) (pc : ConsPc) : (s.goto i pc).took = s.took := rfl

/-- `nextRound` draws the next production or goes to the shutdown, and touches nothing else. -/
theorem nextRound_cases (s : Prodcons n) :
    (s.todo = [] ∧ s.nextRound = { s with ppc := .drain }) ∨
      ∃ p todo, s.todo = p :: todo ∧ s.nextRound = { s with ppc := .spin p, todo := todo } := by
  rcases h : s.todo with _ | ⟨p, todo⟩
  · exact .inl ⟨rfl, by simp [nextRound, h]⟩
  · exact .inr ⟨p, todo, rfl, by simp [nextRound, h]⟩

/-! ## What a step can do -/

inductive Move (s : Prodcons n) : Proc n → Prodcons n → Prop
  | spin : Move s .producer s
  | found (p : Production n) (hpc : s.ppc = .spin p) (h0 : s.m0 = 0) : Move s .producer { s with ppc := .address p }
  | address (p : Production n) (hpc : s.ppc = .address p) :
      Move s .producer { s with m0 := number p.consumer, ppc := .payload p, sent := s.sent ++ [p] }
  | payload (p : Production n) (hpc : s.ppc = .payload p) :
      Move s .producer { s with m1 := p.item, ppc := .tally p }
  | tally (p : Production n) (hpc : s.ppc = .tally p) :
      Move s .producer (nextRound { s with
        consItemc := update s.consItemc p.consumer (s.consItemc p.consumer + 1)
        consChecksum := update s.consChecksum p.consumer (s.consChecksum p.consumer + s.m1) })
  | drained (hpc : s.ppc = .drain) (h0 : s.m0 = 0) : Move s .producer { s with ppc := .stop }
  | stop (hpc : s.ppc = .stop) : Move s .producer { s with m0 := -1, ppc := .done }
  | enter (i : Fin n) (hpc : s.cpc i = .test) (h : s.m0 ≠ -1) : Move s (.consumer i) (s.goto i .cmp)
  | leave (i : Fin n) (hpc : s.cpc i = .test) (h : s.m0 = -1) : Move s (.consumer i) (s.goto i .done)
  | mine (i : Fin n) (hpc : s.cpc i = .cmp) (h : s.m0 = number i) : Move s (.consumer i) (s.goto i .add)
  | other (i : Fin n) (hpc : s.cpc i = .cmp) (h : s.m0 ≠ number i) : Move s (.consumer i) (s.goto i .test)
  | add (i : Fin n) (hpc : s.cpc i = .add) :
      Move s (.consumer i) (goto { s with
        itemc := update s.itemc i (s.itemc i + 1)
        checksum := update s.checksum i (s.checksum i + s.m1)
        took := s.took ++ [⟨s.m1, i⟩] } i .clear)
  | clear (i : Fin n) (hpc : s.cpc i = .clear) : Move s (.consumer i) (goto { s with m0 := 0 } i .test)

theorem move_of_step {s s' : Prodcons n} {a : Proc n} (h : s.step a = some s') : Move s a s' := by
  rcases a with _ | i
  · simp only [step, producer] at h
    split at h
    · split at h
      · cases h; exact .spin
      · cases h; exact .found _ ‹_› (not_not.1 ‹_›)
    · cases h; exact .address _ ‹_›
    · cases h; exact .payload _ ‹_›
    · cases h; exact .tally _ ‹_›
    · split at h
      · cases h; exact .spin
      · cases h; exact .drained ‹_› (not_not.1 ‹_›)
    · cases h; exact .stop ‹_›
    · cases h
  · simp only [step, consumer] at h
    split at h
    · split at h <;> cases h
      · exact .enter i ‹_› ‹_›
      · exact .leave i ‹_› (not_not.1 ‹_›)
    · split at h <;> cases h
      · exact .mine i ‹_› ‹_›
      · exact .other i ‹_› ‹_›
    · cases h; exact .add i ‹_›
    · cases h; exact .clear i ‹_›
    · cases h

/-! ## Whose turn it is -/

/-- What the one cell says about the processes: the number of a consumer while its production waits
(`pending`) or is being cleared, otherwise nothing is under way. -/
structure Turn (s : Prodcons n) : Prop where
  empty : ∀ p, s.ppc = .address p → s.m0 = 0
  stopping : s.ppc = .stop → s.m0 = 0
  off : s.m0 = -1 ↔ s.ppc = .done
  cell : s.m0 = 0 ∨ s.m0 = -1 ∨ ∃ i : Fin n, s.m0 = number i
  idle : s.m0 = 0 ∨ s.m0 = -1 → s.took.length = s.sent.length
  body : ∀ i, s.cpc i = .add ∨ s.cpc i = .clear → s.m0 = number i
  held : ∀ i, s.m0 = number i → ∃ l p, s.sent = l ++ [p] ∧ p.consumer = i ∧
    s.took.length + (if s.cpc i = .clear then 0 else 1) = s.sent.length
  order : s.took.map (·.consumer) <+: s.sent.map (·.consumer)
  gone : ∀ i, s.cpc i = .done → s.m0 = -1

namespace Turn

variable {s s' : Prodcons n}

/-- Nobody is in the body of its loop while the cell names no consumer. -/
theorem not_body (T : Turn s) (h : s.m0 = 0 ∨ s.m0 = -1) (i : Fin n) : s.cpc i ≠ .add ∧ s.cpc i ≠ .clear := by
  constructor
  all_goals
    intro e
    have hb := T.body i (by simp [e])
    rcases h with h | h <;> rw [h] at hb
    · exact number_ne_zero i hb.symm
    · exact number_ne_stop i hb.symm

theorem init (draws : List (Production n)) : Turn (Prodcons.init draws) := by
  rcases draws with _ | ⟨p, todo⟩
  all_goals
    constructor <;> simp [Prodcons.init, nextRound]
    intro i h
    exact absurd h.symm (number_ne_zero i)

/-- What the producer does while it leaves `M[0]` alone. -/
theorem setPpc (T : Turn s) (pc : ProdPc n) (hs : ∀ p, pc = .address p → s.m0 = 0) (hstop : pc = .stop → s.m0 = 0)
    (hpc : s.ppc ≠ .done) (hpc' : pc ≠ .done) (h0 : s'.m0 = s.m0) (hp : s'.ppc = pc) (hc : s'.cpc = s.cpc)
    (hsent : s'.sent = s.sent) (htook : s'.took = s.took) : Turn s' := by
  have hoff : s.m0 ≠ -1 := fun e => hpc (T.off.1 e)
  constructor
  · intro p h; rw [h0]; exact hs p (hp ▸ h)
  · intro h; rw [h0]; exact hstop (hp ▸ h)
  · simp [h0, hp, hoff, hpc']
  · rw [h0]; exact T.cell
  · rw [h0, hsent, htook]; exact T.idle
  · rw [h0, hc]; exact T.body
  · rw [h0, hsent, htook, hc]; exact T.held
  · rw [hsent, htook]; exact T.order
  · rw [h0, hc]; exact T.gone

theorem address (T : Turn s) {p : Production n} (hpc : s.ppc = .address p) :
    Turn { s with m0 := number p.consumer, ppc := .payload p, sent := s.sent ++ [p] } := by
  have h0 := T.empty p hpc
  have hlen := T.idle (.inl h0)
  constructor
  · simp
  · simp
  · simp [number_ne_stop]
  · simp
  · simp [number_ne_zero, number_ne_stop]
  · intro i h
    have := T.not_body (.inl h0) i
    rcases h with h | h
    · exact absurd h this.1
    · exact absurd h this.2
  · intro i hi
    obtain rfl := number_inj.1 hi
    exact ⟨s.sent, p, rfl, rfl, by simp [(T.not_body (.inl h0) p.consumer).2, hlen]⟩
  · simpa using T.order.trans (List.prefix_append _ _)
  · intro i h
    have := T.gone i h
    rw [h0] at this
    exact absurd this (by decide)

theorem stop (T : Turn s) (hpc : s.ppc = .stop) : Turn { s with m0 := -1, ppc := .done } := by
  have h0 := T.stopping hpc
  constructor
  · simp
  · simp
  · simp
  · simp
  · intro _; exact T.idle (.inl h0)
  · intro i h
    have := T.not_body (.inl h0) i
    rcases h with h | h
    · exact absurd h this.1
    · exact absurd h this.2
  · intro i h
    exact absurd h.symm (number_ne_stop i)
  · exact T.order
  · simp

/-- What consumer `i` does outside the body of its loop. -/
theorem goto (T : Turn s) {i : Fin n} {pc : ConsPc} (hold : s.cpc i ≠ .clear) (hnew : pc ≠ .clear)
    (hadd : pc = .add → s.m0 = number i) (hdone : pc = .done → s.m0 = -1) : Turn (s.goto i pc) := by
  constructor
  · exact T.empty
  · exact T.stopping
  · exact T.off
  · exact T.cell
  · exact T.idle
  · intro j h
    by_cases e : j = i
    · subst e
      exact hadd (by simpa [hnew] using h)
    · exact T.body j (by simpa [e] using h)
  · intro j hj
    by_cases e : j = i
    · subst e
      simpa [hold, hnew] using T.held j hj
    · simpa [e] using T.held j hj
  · exact T.order
  · intro j h
    by_cases e : j = i
    · subst e
      exact hdone (by simpa using h)
    · exact T.gone j (by simpa [e] using h)

/-- The one consumer that waits for `clear` made the last production its own. -/
theorem add (T : Turn s) {i : Fin n} (hpc : s.cpc i = .add) (h0 : s'.m0 = s.m0) (hp : s'.ppc = s.ppc)
    (hc : s'.cpc = update s.cpc i .clear) (hsent : s'.sent = s.sent) {v : Int}
    (htook : s'.took = s.took ++ [⟨v, i⟩]) : Turn s' := by
  have hm := T.body i (.inl hpc)
  obtain ⟨l, p, hl, hpi, hlen⟩ := T.held i hm
  simp only [hpc, reduceCtorEq, if_false] at hlen
  have horder : s.took.map (·.consumer) = l.map (·.consumer) := by
    have h := T.order
    rw [hl] at h hlen
    rw [List.length_append, List.length_singleton] at hlen
    rw [List.map_append] at h
    refine (List.prefix_of_prefix_length_le h (List.prefix_append _ _) ?_).eq_of_length ?_ <;>
      simp only [List.length_map] <;> omega
  constructor
  · rw [h0, hp]; exact T.empty
  · rw [h0, hp]; exact T.stopping
  · rw [h0, hp]; exact T.off
  · rw [h0]; exact T.cell
  · rw [h0, hm]; simp [number_ne_zero, number_ne_stop]
  · intro j h
    rw [h0]
    by_cases e : j = i
    · exact e ▸ hm
    · exact T.body j (by simpa [hc, e] using h)
  · intro j hj
    rw [h0, hm] at hj
    obtain rfl := number_inj.1 hj
    exact ⟨l, p, hsent.trans hl, hpi, by simp [hc, htook, hsent, ← hlen]⟩
  · rw [htook, hsent, hl, List.map_append, List.map_append, horder]; simp [hpi]
  · intro j h
    rw [h0]
    by_cases e : j = i
    · simp [hc, e] at h
    · exact T.gone j (by simpa [hc, e] using h)

theorem clear (T : Turn s) {i : Fin n} (hpc : s.cpc i = .clear) : Turn (Prodcons.goto { s with m0 := 0 } i .test) := by
  have hm := T.body i (.inr hpc)
  obtain ⟨l, p, hl, hpi, hlen⟩ := T.held i hm
  have hoff : s.ppc ≠ .done := fun e => by
    rw [T.off.2 e] at hm
    exact number_ne_stop i hm.symm
  constructor
  · simp
  · simp
  · simp [hoff]
  · simp
  · simpa [hpc] using hlen
  · intro j h
    by_cases e : j = i
    · simp [e] at h
    · -- another consumer in its body would have its own number in the cell
      have := T.body j (by simpa [e] using h)
      exact absurd (number_inj.1 (this.symm.trans hm)) e
  · intro j h
    exact absurd h.symm (number_ne_zero j)
  · exact T.order
  · intro j h
    by_cases e : j = i
    · simp [e] at h
    · have := T.gone j (by simpa [e] using h)
      exact absurd (hm.symm.trans this) (number_ne_stop i)

theorem step (T : Turn s) {a : Proc n} (h : s.step a = some s') : Turn s' := by
  cases move_of_step h with
  | spin => exact T
  | found p hpc h0 => exact T.setPpc (.address p) (fun _ _ => h0) (by simp) (by simp [hpc]) (by simp) rfl rfl rfl rfl rfl
  | address p hpc => exact T.address hpc
  | payload p hpc => exact T.setPpc (.tally p) (by simp) (by simp) (by simp [hpc]) (by simp) rfl rfl rfl rfl rfl
  | tally p hpc =>
    rcases nextRound_cases { s with
        consItemc := update s.consItemc p.consumer (s.consItemc p.consumer + 1)
        consChecksum := update s.consChecksum p.consumer (s.consChecksum p.consumer + s.m1) }
      with ⟨-, he⟩ | ⟨q, todo, -, he⟩ <;> rw [he]
    · exact T.setPpc .drain (by simp) (by simp) (by simp [hpc]) (by simp) rfl rfl rfl rfl rfl
    · exact T.setPpc (.spin q) (by simp) (by simp) (by simp [hpc]) (by simp) rfl rfl rfl rfl rfl
  | drained hpc h0 => exact T.setPpc .stop (by simp) (fun _ => h0) (by simp [hpc]) (by simp) rfl rfl rfl rfl rfl
  | stop hpc => exact T.stop hpc
  | enter i hpc h => exact T.goto (by simp [hpc]) (by simp) (by simp) (by simp)
  | leave i hpc hm => exact T.goto (by simp [hpc]) (by simp) (by simp) fun _ => hm
  | mine i hpc hm => exact T.goto (by simp [hpc]) (by simp) (fun _ => hm) (by simp)
  | other i hpc h => exact T.goto (by simp [hpc]) (by simp) (by simp) (by simp)
  | add i hpc => exact T.add hpc rfl rfl rfl rfl rfl
  | clear i hpc => exact T.clear hpc

end Turn

/-! ## The books -/

/-- The items of a list of productions that are consumer `i`'s, in order. -/
def items (i : Fin n) (l : List (Production n)) : List Int :=
  (l.filter (·.consumer = i)).map (·.item)

theorem items_append (i : Fin n) (l l' : List (Production n)) : items i (l ++ l') = items i l ++ items i l' := by
  simp [items]

theorem items_singleton (i : Fin n) (p : Production n) : items i [p] = if p.consumer = i then [p.item] else [] := by
  by_cases h : p.consumer = i <;> simp [items, h]

/-- The counters agree with what was addressed and taken. -/
structure Books (draws : List (Production n)) (s : Prodcons n) : Prop where
  left : s.sent ++ s.left = draws
  ended : s.ppc = .drain ∨ s.ppc = .stop ∨ s.ppc = .done → s.todo = []
  flight : ∀ p, s.ppc = .payload p ∨ s.ppc = .tally p → ∃ l, s.sent = l ++ [p]
  written : ∀ l p, s.sent = l ++ [p] → s.ppc ≠ .payload p → s.m1 = p.item
  itemc : ∀ i, s.itemc i = (s.took.map (·.consumer)).count i
  checksum : ∀ i, s.checksum i = (items i s.took).sum
  consItemc : ∀ i, s.consItemc i = (s.tallied.map (·.consumer)).count i
  consChecksum : ∀ i, s.consChecksum i = (items i s.tallied).sum

namespace Books

variable {draws : List (Production n)} {s s' : Prodcons n}

theorem init (draws : List (Production n)) : Books draws (Prodcons.init draws) := by
  rcases draws with _ | ⟨p, todo⟩ <;>
    constructor <;> simp [Prodcons.init, nextRound, Prodcons.left, tallied, items]

/-- Steps that touch neither the productions nor the counters. -/
theorem congr (B : Books draws s) (h1 : s'.m1 = s.m1) (ht : s'.todo = s.todo) (hp : s'.ppc = s.ppc)
    (hci : s'.consItemc = s.consItemc) (hcc : s'.consChecksum = s.consChecksum) (hi : s'.itemc = s.itemc)
    (hck : s'.checksum = s.checksum) (hsent : s'.sent = s.sent) (htook : s'.took = s.took) : Books draws s' := by
  have htal : s'.tallied = s.tallied := by simp [tallied, hp, hsent]
  constructor
  · rw [hsent, show s'.left = s.left by simp [Prodcons.left, hp, ht]]; exact B.left
  · rw [hp, ht]; exact B.ended
  · rw [hp, hsent]; exact B.flight
  · rw [hp, hsent, h1]; exact B.written
  · rw [hi, htook]; exact B.itemc
  · rw [hck, htook]; exact B.checksum
  · rw [hci, htal]; exact B.consItemc
  · rw [hcc, htal]; exact B.consChecksum

/-- The producer saw an empty cell. -/
theorem found (B : Books draws s) {p : Production n} (hpc : s.ppc = .spin p) : Books draws { s with ppc := .address p } where
  left := by simpa [Prodcons.left, hpc] using B.left
  ended := by simp
  flight := by simp
  written l q h _ := B.written l q h (by simp [hpc])
  itemc := B.itemc
  checksum := B.checksum
  consItemc := by simpa [tallied, hpc] using B.consItemc
  consChecksum := by simpa [tallied, hpc] using B.consChecksum

theorem address (B : Books draws s) {p : Production n} (hpc : s.ppc = .address p) :
    Books draws { s with m0 := number p.consumer, ppc := .payload p, sent := s.sent ++ [p] } where
  left := by simpa [Prodcons.left, hpc] using B.left
  ended := by simp
  flight q h := ⟨s.sent, by simp at h; simp [h]⟩
  written l q h hne := by
    simp only [List.append_inj_left' h rfl, List.append_cancel_left_eq, List.cons.injEq, and_true] at h
    simp [h] at hne
  itemc := B.itemc
  checksum := B.checksum
  consItemc := by simpa [tallied, hpc] using B.consItemc
  consChecksum := by simpa [tallied, hpc] using B.consChecksum

theorem payload (B : Books draws s) {p : Production n} (hpc : s.ppc = .payload p) :
    Books draws { s with m1 := p.item, ppc := .tally p } where
  left := by simpa [Prodcons.left, hpc] using B.left
  ended := by simp
  flight q h := B.flight q (.inl (by simp at h; simp [hpc, h]))
  written l q h _ := by
    obtain ⟨l', hl'⟩ := B.flight p (.inl hpc)
    rw [hl'] at h
    simp only [List.append_inj_left' h rfl, List.append_cancel_left_eq, List.cons.injEq, and_true] at h
    rw [h]
  itemc := B.itemc
  checksum := B.checksum
  consItemc := by simpa [tallied, hpc] using B.consItemc
  consChecksum := by simpa [tallied, hpc] using B.consChecksum

/-- The producer counts the production it has just stored. -/
theorem tally (B : Books draws s) {p : Production n} (hpc : s.ppc = .tally p) :
    Books draws (nextRound { s with
      consItemc := update s.consItemc p.consumer (s.consItemc p.consumer + 1)
      consChecksum := update s.consChecksum p.consumer (s.consChecksum p.consumer + s.m1) }) := by
  obtain ⟨l, hl⟩ := B.flight p (.inr hpc)
  have h1 := B.written l p hl (by simp [hpc])
  have hleft : s.sent ++ s.todo = draws := by simpa [Prodcons.left, hpc] using B.left
  have hci : ∀ i, update s.consItemc p.consumer (s.consItemc p.consumer + 1) i = (s.sent.map (·.consumer)).count i := by
    intro i
    have hp := B.consItemc p.consumer
    have hi := B.consItemc i
    simp only [tallied, hpc, hl, List.dropLast_concat] at hp hi
    by_cases e : i = p.consumer
    · simp [e, hl, hp]
    · simp [e, hl, hi, Ne.symm e]
  have hcc : ∀ i, update s.consChecksum p.consumer (s.consChecksum p.consumer + s.m1) i = (items i s.sent).sum := by
    intro i
    have hp := B.consChecksum p.consumer
    have hi := B.consChecksum i
    simp only [tallied, hpc, hl, List.dropLast_concat] at hp hi
    by_cases e : i = p.consumer
    · simp [e, hl, hp, h1, items_append, items_singleton]
    · simp [e, hl, hi, items_append, items_singleton, Ne.symm e]
  rcases nextRound_cases { s with
      consItemc := update s.consItemc p.consumer (s.consItemc p.consumer + 1)
      consChecksum := update s.consChecksum p.consumer (s.consChecksum p.consumer + s.m1) }
    with ⟨htodo, he⟩ | ⟨q, todo, htodo, he⟩ <;> rw [he]
  all_goals
    change s.todo = _ at htodo
    constructor
    · simpa [Prodcons.left, htodo] using hleft
    · simp [htodo]
    · simp
    · intro l q h _
      exact B.written l q h (by simp [hpc])
    · exact B.itemc
    · exact B.checksum
    · exact hci
    · exact hcc

/-- The shutdown: `pc` is `stop` or `done`. -/
theorem shut (B : Books draws s) {pc : ProdPc n} (hpc : s.ppc = .drain ∨ s.ppc = .stop) (hpc' : pc = .stop ∨ pc = .done)
    {m : Int} : Books draws { s with m0 := m, ppc := pc } := by
  have htodo : s.todo = [] := B.ended (by rcases hpc with h | h <;> simp [h])
  have hleft : s.sent = draws := by rcases hpc with h | h <;> simpa [Prodcons.left, h, htodo] using B.left
  have htal : s.tallied = s.sent := by rcases hpc with h | h <;> simp [tallied, h]
  have htal' : tallied { s with m0 := m, ppc := pc } = s.sent := by rcases hpc' with rfl | rfl <;> rfl
  constructor
  · rcases hpc' with rfl | rfl <;> simpa [Prodcons.left, htodo] using hleft
  · intro _; exact htodo
  · rcases hpc' with rfl | rfl <;> simp
  · intro l q h _
    refine B.written l q h ?_
    rcases hpc with e | e <;> simp [e]
  · exact B.itemc
  · exact B.checksum
  · intro i; rw [htal', ← htal]; exact B.consItemc i
  · intro i; rw [htal', ← htal]; exact B.consChecksum i

/-- Consumer `i` counts the item it has read. -/
theorem add (B : Books draws s) (i : Fin n) :
    Books draws (goto { s with
      itemc := update s.itemc i (s.itemc i + 1)
      checksum := update s.checksum i (s.checksum i + s.m1)
      took := s.took ++ [⟨s.m1, i⟩] } i .clear) where
  left := B.left
  ended := B.ended
  flight := B.flight
  written := B.written
  itemc j := by
    by_cases e : j = i
    · simp [e, goto, B.itemc]
    · simp [e, goto, B.itemc, Ne.symm e]
  checksum j := by
    by_cases e : j = i
    · simp [e, goto, B.checksum, items_append, items_singleton]
    · simp [e, goto, B.checksum, items_append, items_singleton, Ne.symm e]
  consItemc := B.consItemc
  consChecksum := B.consChecksum

theorem step (B : Books draws s) {a : Proc n} (h : s.step a = some s') : Books draws s' := by
  cases move_of_step h with
  | spin => exact B
  | found p hpc h0 => exact B.found hpc
  | address p hpc => exact B.address hpc
  | payload p hpc => exact B.payload hpc
  | tally p hpc => exact B.tally hpc
  | drained hpc h0 => exact B.shut (.inl hpc) (.inl rfl)
  | stop hpc => exact B.shut (.inr hpc) (.inr rfl)
  | enter i hpc h => exact B.congr rfl rfl rfl rfl rfl rfl rfl rfl rfl
  | leave i hpc h => exact B.congr rfl rfl rfl rfl rfl rfl rfl rfl rfl
  | mine i hpc h => exact B.congr rfl rfl rfl rfl rfl rfl rfl rfl rfl
  | other i hpc h => exact B.congr rfl rfl rfl rfl rfl rfl rfl rfl rfl
  | add i hpc => exact B.add i
  | clear i hpc => exact B.congr rfl rfl rfl rfl rfl rfl rfl rfl rfl

end Books

variable {draws : List (Production n)} {s : Prodcons n}

theorem inv_of_reach (h : Reach step (Prodcons.init draws) s) : Turn s ∧ Books draws s :=
  h.inv (I := fun s => Turn s ∧ Books draws s) ⟨.init draws, .init draws⟩
    fun _ _ _ _ hI _ hs => ⟨hI.1.step hs, hI.2.step hs⟩

/-- The consumptions follow the productions one by one. -/
structure ExactlyOnce (draws : List (Production n)) (s : Prodcons n) : Prop where
  /-- What was addressed so far are the first productions, in order. -/
  produced : s.sent <+: draws
  /-- The consumptions so far are those of the first productions, each by its own consumer. -/
  chosen : s.took.map (·.consumer) <+: s.sent.map (·.consumer)
  /-- Nothing is addressed before what was addressed earlier is consumed. -/
  waits : s.sent.length ≤ s.took.length + 1
  counted : ∀ i, s.itemc i = (s.took.map (·.consumer)).count i
  /-- Who has left its loop has consumed all its items. -/
  leaves : ∀ i, s.cpc i = .done → s.itemc i = (draws.map (·.consumer)).count i
  /-- When -1 is stored everything is consumed and the counts agree. -/
  stops : s.ppc = .stop ∨ s.m0 = -1 →
    s.took.map (·.consumer) = draws.map (·.consumer) ∧ ∀ i, s.itemc i = s.consItemc i

namespace Turn

/-- At most one production is under way. -/
theorem length_le (T : Turn s) : s.sent.length ≤ s.took.length + 1 := by
  rcases T.cell with h | h | ⟨i, h⟩
  · have := T.idle (.inl h); omega
  · have := T.idle (.inr h); omega
  · obtain ⟨-, -, -, -, hlen⟩ := T.held i h
    split at hlen <;> omega

/-- With nothing under way everything addressed is consumed. -/
theorem took_eq (T : Turn s) (h : s.m0 = 0 ∨ s.m0 = -1) : s.took.map (·.consumer) = s.sent.map (·.consumer) :=
  T.order.eq_of_length (by simpa using T.idle h)

end Turn

theorem Books.stopped (B : Books draws s) (T : Turn s) (h : s.ppc = .stop ∨ s.m0 = -1) :
    s.took.map (·.consumer) = draws.map (·.consumer) ∧ s.tallied = draws := by
  have hpc : s.ppc = .stop ∨ s.ppc = .done := h.imp id T.off.1
  have h0 : s.m0 = 0 ∨ s.m0 = -1 := h.imp T.stopping id
  have hsent : s.sent = draws := by
    have htodo := B.ended (.inr hpc)
    rcases hpc with e | e <;> simpa [Prodcons.left, e, htodo] using B.left
  refine ⟨by rw [T.took_eq h0, hsent], ?_⟩
  rcases hpc with e | e <;> simpa [tallied, e] using hsent

end Prodcons

/-- **Exactly-once hand-off.** In every interleaving the productions are consumed one by one, each by the
consumer it was made for; nobody leaves early, and the counts agree when -1 is stored. -/
theorem exactlyOnce_of_reach (draws : List (Production n)) (s : Prodcons n)
    (h : Reach Prodcons.step (Prodcons.init draws) s) : s.ExactlyOnce draws := by
  obtain ⟨T, B⟩ := Prodcons.inv_of_reach h
  have hstops : s.ppc = .stop ∨ s.m0 = -1 →
      s.took.map (·.consumer) = draws.map (·.consumer) ∧ ∀ i, s.itemc i = s.consItemc i := by
    intro hs
    obtain ⟨htook, htal⟩ := B.stopped T hs
    refine ⟨htook, fun i => ?_⟩
    rw [B.itemc, B.consItemc, htook, htal]
  constructor
  · rw [← B.left]; exact List.prefix_append _ _
  · exact T.order
  · exact T.length_le
  · exact B.itemc
  · intro i hi
    rw [B.itemc, (hstops (.inr (T.gone i hi))).1]
  · exact hstops

/-- Two consumers, three productions: the run to the end, the second consumer looking in between. -/
theorem exactlyOnce_run : ∃ s : Prodcons 2,
    (s.took.map (·.consumer) = [1, 0, 1] ∧ s.m0 = -1) ∧ s.ExactlyOnce [⟨150, 1⟩, ⟨220, 0⟩, ⟨300, 1⟩] := by
  obtain ⟨s, hs, hp⟩ := Trans.exists_reach_of_run Prodcons.step (Prodcons.init [⟨150, 1⟩, ⟨220, 0⟩, ⟨300, 1⟩])
    (.consumer 0 :: List.replicate 4 .producer ++ .consumer 0 :: List.replicate 4 (.consumer 1) ++
      List.replicate 4 .producer ++ List.replicate 4 (.consumer 0) ++ List.replicate 4 .producer ++
      List.replicate 4 (.consumer 1) ++ List.replicate 2 .producer)
    (fun s : Prodcons 2 => s.took.map (·.consumer) == [1, 0, 1] && s.m0 == -1) (by decide +kernel)
  simp only [Bool.and_eq_true, beq_iff_eq] at hp
  exact ⟨s, hp, exactlyOnce_of_reach _ s hs⟩

end OsLab.A4
