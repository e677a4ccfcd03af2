import OsLab.A6.Schedule
import OsLab.Lib.Scan

/-!
# The arrival file (A6/event.c, A6/arrival.c)

| here | there |
| --- | --- |
| `numbers`                   | `fscanf(fp, "%d%d", ...)` (event.c:38) |
| `Reader.step`, at `.record` | :35-39, with the `%c` |
| `Reader.step`, at `.line`   | a round of `while (fgetc(fp) != '\n')` (:40) |
| `Reader.initEQ`             | `initEQ`; `none`: it reads on, or wrote behind the array |
| `line`, `written`           | what arrival.c prints |

At the end of the file `%c` leaves `type` as it is, `%d` leaves its argument, and `fgetc` returns `EOF` again and
again. `type` before the first line and what `malloc` returns are arbitrary. A `Record` is what one round of the loop
takes; it may have several lines, since `%d` skips newlines.
-/

namespace OsLab.A6

open Scan (scanInt Local)
open CString (decimal)

/-- The event, of which what cannot be read is `blank`'s, and what is left. -/
def numbers (blank : Event) (type : Char) (s : List Char) : Event × List Char :=
  match scanInt s with
  | (none, s) => (⟨type, blank.time, blank.duration⟩, s)
  | (some time, s) =>
    match scanInt s with
    | (none, s) => (⟨type, time, blank.duration⟩, s)
    | (some duration, s) => (⟨type, time, duration⟩, s)

/-- What `"%d%d"` leaves. -/
def afterNumbers (s : List Char) : List Char :=
  if (scanInt s).1.isSome then (scanInt (scanInt s).2).2 else (scanInt s).2

/-- At the test of `while (1)`, at the test of the loop at :40, behind the loop. -/
inductive Reader.Pc
  | record | line | closed
deriving DecidableEq, Repr

structure Reader where
  rest : List Char
  type : Char
  stored : List Event
  pc : Reader.Pc
deriving DecidableEq, Repr

namespace Reader

def start (contents : List Char) (type : Char) : Reader := ⟨contents, type, [], .record⟩

def step (malloc : Nat → Event) (s : Reader) : Reader :=
  match s.pc with
  | .record =>
    let type := s.rest.headD s.type
    if type = 'E' then { s with rest := s.rest.tail, type := type, pc := .closed }
    else
      let (e, rest) := numbers (malloc s.stored.length) type s.rest.tail
      { rest := rest, type := type, stored := s.stored ++ [e], pc := .line }
  | .line =>
    match s.rest with
    | [] => s
    | c :: cs => { s with rest := cs, pc := if c = '\n' then .record else .line }
  | .closed => s

/-- The loop ends. -/
def Ends (malloc : Nat → Event) (s : Reader) : Prop := ∃ k, ((step malloc)^[k] s).pc = .closed

/-- Nothing is written behind the array. -/
def Fits (malloc : Nat → Event) (s : Reader) : Prop := ∀ k, ((step malloc)^[k] s).stored.length ≤ capacity

/-- After `fuel` steps. -/
def initEQ (malloc : Nat → Event) (contents : List Char) (type : Char) (fuel : Nat) : Option EventQ :=
  let s := (step malloc)^[fuel] (start contents type)
  if s.pc = .closed ∧ s.stored.length ≤ capacity then some (Chamber.initEQ s.stored) else none

end Reader

/-- A line of arrival.c (:16, :20, :24). -/
def line (e : Event) : List Char := e.type :: ' ' :: decimal e.time ++ ' ' :: decimal e.duration ++ ['\n']

def written (arrivals : List Event) : List Char := arrivals.flatMap line ++ ['E', '\n']

/-- One round of the reading loop takes this and no more. -/
def Record (r : List Char) : Prop :=
  ∃ c u v, r = c :: u ∧ c ≠ 'E' ∧ afterNumbers u = v ++ ['\n'] ∧ '\n' ∉ v

/-! ## What is left -/

theorem numbers_snd (blank : Event) (type : Char) (s : List Char) : (numbers blank type s).2 = afterNumbers s := by
  unfold numbers afterNumbers
  split
  · rename_i h
    rw [h]
    rfl
  · rename_i h
    rw [h]
    dsimp only
    split
    · rename_i h'
      rw [h']
      rfl
    · rename_i h'
      rw [h']
      rfl

theorem local_afterNumbers : Local afterNumbers := by
  -- the second number is scanned when the first one has a digit
  have heq : afterNumbers = fun s => Scan.whenNext Char.isDigit (fun t => (scanInt (t.dropWhile Char.isDigit)).2)
      (Scan.beforeDigits s) := by
    funext s
    rw [afterNumbers, Scan.whenNext]
    by_cases h : (Scan.beforeDigits s).head?.any Char.isDigit = true
    · rw [if_pos h, Scan.scanInt_of_digit h]
      rfl
    · rw [if_neg h, Scan.scanInt_of_no_digit h]
      rfl
  rw [heq]
  exact Scan.local_beforeDigits.comp
    (Scan.local_whenNext ((Scan.local_dropWhile Char.isDigit).comp Scan.local_scanInt) Char.isDigit)

/-! ## The steps -/

namespace Reader

variable {malloc : Nat → Event} {s : Reader} {c : Char} {cs u v m : List Char}

theorem step_closed (h : s.pc = .closed) : s.step malloc = s := by
  rw [step, h]

/-- At the end of the line loop. -/
theorem step_newline (hpc : s.pc = .line) (hrest : s.rest = '\n' :: m) :
    s.step malloc = { s with rest := m, pc := .record } := by
  rw [step, hpc, hrest]
  rfl

theorem step_character (hpc : s.pc = .line) (hrest : s.rest = c :: cs) (hc : c ≠ '\n') :
    s.step malloc = { s with rest := cs } := by
  rw [step, hpc, hrest]
  dsimp only
  rw [if_neg hc, ← hpc]

theorem step_eof (hpc : s.pc = .line) (hrest : s.rest = []) : s.step malloc = s := by
  rw [step, hpc, hrest]

theorem step_end (hpc : s.pc = .record) (htype : s.rest.headD s.type = 'E') :
    s.step malloc = { s with rest := s.rest.tail, type := 'E', pc := .closed } := by
  rw [step, hpc]
  dsimp only
  rw [if_pos htype, htype]

theorem step_record (malloc : Nat → Event) (hpc : s.pc = .record) (htype : s.rest.headD s.type ≠ 'E') :
    s.step malloc =
    { rest := afterNumbers s.rest.tail
      type := s.rest.headD s.type
      stored := s.stored ++ [(numbers (malloc s.stored.length) (s.rest.headD s.type) s.rest.tail).1]
      pc := .line } := by
  rw [step, hpc]
  dsimp only
  rw [if_neg htype, numbers_snd]

/-- Nothing that is stored is taken away. -/
theorem step_stored (malloc : Nat → Event) (s : Reader) : s.stored <+: (s.step malloc).stored := by
  unfold step
  split
  · dsimp only
    split_ifs
    · exact List.prefix_rfl
    · exact List.prefix_append _ _
  · split
    · exact List.prefix_rfl
    · exact List.prefix_rfl
  · exact List.prefix_rfl

/-! ## Runs -/

theorem closed_iterate (h : s.pc = .closed) (k : Nat) : (step malloc)^[k] s = s :=
  Function.iterate_fixed (step_closed h) k

theorem stored_iterate (malloc : Nat → Event) (s : Reader) (k : Nat) : s.stored <+: ((step malloc)^[k] s).stored := by
  induction k with
  | zero => exact List.prefix_rfl
  | succ k ih =>
    rw [Function.iterate_succ_apply']
    exact ih.trans (step_stored malloc _)

/-- Whether the loop ends is seen at every point of the run. -/
theorem ends_iterate (j : Nat) : Ends malloc ((step malloc)^[j] s) ↔ Ends malloc s := by
  constructor
  · rintro ⟨k, hk⟩
    exact ⟨k + j, by rwa [Function.iterate_add_apply]⟩
  · rintro ⟨k, hk⟩
    refine ⟨k, ?_⟩
    rw [← Function.iterate_add_apply, Nat.add_comm, Function.iterate_add_apply, closed_iterate hk]
    exact hk

/-- When the loop has ended, no more is ever stored than then. -/
theorem fits_iff_ended {k : Nat} (h : ((step malloc)^[k] s).pc = .closed) :
    Fits malloc s ↔ ((step malloc)^[k] s).stored.length ≤ capacity := by
  constructor
  · intro hall
    exact hall k
  · intro hk j
    refine le_trans ?_ hk
    rcases le_total j k with hle | hle
    · obtain ⟨i, rfl⟩ := Nat.exists_eq_add_of_le' hle
      rw [Function.iterate_add_apply]
      exact (stored_iterate malloc _ i).length_le
    · obtain ⟨i, rfl⟩ := Nat.exists_eq_add_of_le' hle
      rw [Function.iterate_add_apply, closed_iterate h]

/-- The rest of a line is skipped. -/
theorem line_iterate (hpc : s.pc = .line) (hrest : s.rest = v ++ '\n' :: m) (hv : '\n' ∉ v) :
    (step malloc)^[v.length + 1] s = { s with rest := m, pc := .record } := by
  induction v generalizing s with
  | nil => exact step_newline hpc hrest
  | cons c v ih =>
    rw [List.mem_cons, not_or] at hv
    obtain ⟨hc, hv⟩ := hv
    rw [List.length_cons, Function.iterate_succ_apply, step_character hpc hrest (Ne.symm hc)]
    exact ih hpc rfl hv

/-- The rest of the file has no newline. -/
def Stuck (s : Reader) : Prop := s.pc = .line ∧ '\n' ∉ s.rest

theorem Stuck.step (h : s.Stuck) : (s.step malloc).Stuck := by
  obtain ⟨hpc, hrest⟩ := h
  cases hs : s.rest with
  | nil =>
    rw [step_eof hpc hs]
    exact ⟨hpc, hrest⟩
  | cons c cs =>
    rw [hs, List.mem_cons, not_or] at hrest
    obtain ⟨hc, hcs⟩ := hrest
    rw [step_character hpc hs (Ne.symm hc)]
    exact ⟨hpc, hcs⟩

/-- **A file that ends in the middle of a line is read forever.** -/
theorem Stuck.not_ends (h : s.Stuck) : ¬ Ends malloc s := by
  rintro ⟨k, hk⟩
  have hstuck : ((Reader.step malloc)^[k] s).Stuck := by
    clear hk
    induction k with
    | zero => exact h
    | succ k ih =>
      rw [Function.iterate_succ_apply']
      exact ih.step
  rw [hstuck.1] at hk
  cases hk

/-- One round of the loop. -/
theorem record_iterate (malloc : Nat → Event) (hpc : s.pc = .record) (hrest : s.rest = c :: cs) (hc : c ≠ 'E')
    (hcs : afterNumbers cs = v ++ '\n' :: m) (hv : '\n' ∉ v) : ∃ k, (step malloc)^[k] s =
      { rest := m, type := c, stored := s.stored ++ [(numbers (malloc s.stored.length) c cs).1], pc := .record } := by
  have htype : s.rest.headD s.type = c := by rw [hrest]; rfl
  have hstep := step_record malloc hpc (by rwa [htype])
  rw [htype, hrest, List.tail_cons, hcs] at hstep
  refine ⟨v.length + 1 + 1, ?_⟩
  rw [Function.iterate_succ_apply, hstep]
  exact line_iterate rfl rfl hv

/-- Records are taken one after the other. -/
theorem records_iterate (malloc : Nat → Event) {records : List (List Char)} (hrecords : ∀ r ∈ records, Record r)
    (hpc : s.pc = .record) (hrest : s.rest = records.flatten ++ m) : ∃ k t, (step malloc)^[k] s = t ∧ t.pc = .record ∧ t.rest = m ∧
      t.stored.length = s.stored.length + records.length := by
  induction records generalizing s with
  | nil => exact ⟨0, s, rfl, hpc, hrest, rfl⟩
  | cons r records ih =>
    obtain ⟨c, u, v, rfl, hc, hu, hv⟩ := hrecords _ List.mem_cons_self
    have hcs : afterNumbers (u ++ (records.flatten ++ m)) = v ++ '\n' :: (records.flatten ++ m) := by
      rw [local_afterNumbers.keep (by rw [hu]; simp), hu, List.append_assoc]
      rfl
    have hline : s.rest = c :: (u ++ (records.flatten ++ m)) := by simp [hrest]
    obtain ⟨j, hj⟩ := record_iterate malloc hpc hline hc hcs hv
    obtain ⟨k, t, ht, hpc', hrest', hlen⟩ := ih (fun r hr => hrecords r (List.mem_cons_of_mem _ hr)) (s :=
      { rest := records.flatten ++ m, type := c,
        stored := s.stored ++ [(numbers (malloc s.stored.length) c (u ++ (records.flatten ++ m))).1], pc := .record })
      rfl rfl
    refine ⟨k + j, t, ?_, hpc', hrest', ?_⟩
    · rw [Function.iterate_add_apply, hj, ht]
    · rw [hlen, List.length_append, List.length_singleton, List.length_cons]
      omega

/-- What a round takes is a record. -/
theorem exists_record (hcs : afterNumbers cs = v ++ '\n' :: m) (hc : c ≠ 'E') (hv : '\n' ∉ v) :
    ∃ r, Record r ∧ c :: cs = r ++ m := by
  obtain ⟨p, hp⟩ := local_afterNumbers.suffix cs
  have hsplit : cs = (p ++ (v ++ ['\n'])) ++ m := by
    rw [← hp, hcs]
    simp
  have htake : afterNumbers (p ++ (v ++ ['\n'])) = v ++ ['\n'] := by
    refine (local_afterNumbers.append_iff (m := m) (by simp)).1 ?_
    rw [← hsplit, hcs]
    simp
  exact ⟨c :: (p ++ (v ++ ['\n'])), ⟨c, _, v, rfl, hc, htake, hv⟩, congrArg (c :: ·) hsplit⟩

/-- A round after which the loop still ends takes a record. -/
theorem round_of_ends (hpc : s.pc = .record) (htype : s.rest.headD s.type ≠ 'E') (h : Ends malloc s) :
    ∃ r t, Record r ∧ s.rest = r ++ t.rest ∧ Ends malloc t ∧ t.pc = .record ∧ t.type ≠ 'E' := by
  have hline := (ends_iterate 1).2 h
  rw [Function.iterate_one, step_record malloc hpc htype] at hline
  by_cases hnl : '\n' ∈ afterNumbers s.rest.tail
  · obtain ⟨v, m, hvm, hv⟩ := List.eq_append_cons_of_mem hnl
    cases hs : s.rest with
    | nil =>
      rw [hs, List.tail_nil, local_afterNumbers.nil] at hnl
      exact absurd hnl List.not_mem_nil
    | cons c cs =>
      rw [hs, List.headD_cons] at htype
      rw [hs, List.tail_cons] at hvm
      obtain ⟨k, hk⟩ := record_iterate malloc hpc hs htype hvm hv
      obtain ⟨r, hr, hsplit⟩ := exists_record hvm htype hv
      rw [← ends_iterate k, hk] at h
      exact ⟨r, _, hr, hsplit, h, rfl, htype⟩
  · exact absurd hline (Stuck.not_ends ⟨rfl, hnl⟩)

/-- Only an `E` at the start of a record ends the loop. -/
theorem records_of_ends (hpc : s.pc = .record) (h : Ends malloc s) : s.rest = [] ∧ s.type = 'E' ∨
    ∃ (records : List (List Char)) (m : List Char), s.rest = records.flatten ++ 'E' :: m ∧ ∀ r ∈ records, Record r := by
  induction hn : s.rest.length using Nat.strong_induction_on generalizing s with
  | _ n ih =>
  by_cases htype : s.rest.headD s.type = 'E'
  · cases hs : s.rest with
    | nil =>
      rw [hs] at htype
      exact .inl ⟨rfl, htype⟩
    | cons c cs =>
      rw [hs] at htype
      obtain rfl : c = 'E' := htype
      exact .inr ⟨[], cs, rfl, fun _ hr => absurd hr List.not_mem_nil⟩
  · obtain ⟨r, t, hr, hsplit, ht, hpc', htype'⟩ := round_of_ends hpc htype h
    have hshort : t.rest.length < n := by
      obtain ⟨c, u, v, rfl, -⟩ := hr
      rw [← hn, hsplit, List.length_append, List.length_cons]
      omega
    rcases ih _ hshort hpc' ht rfl with ⟨-, hE⟩ | ⟨records, m, hrest, hrecords⟩
    · exact absurd hE htype'
    · refine .inr ⟨r :: records, m, ?_, List.forall_mem_cons.2 ⟨hr, hrecords⟩⟩
      rw [hsplit, hrest, List.flatten_cons, List.append_assoc]

/-- **Reading ends within bounds** just for a file that has an `E` behind at most 128 records (or is empty, if `type`
happens to be an `E`). -/
theorem reading_ends_iff (malloc : Nat → Event) (contents : List Char) (type : Char) :
    Ends malloc (start contents type) ∧ Fits malloc (start contents type) ↔
      (contents = [] ∧ type = 'E') ∨ ∃ (records : List (List Char)) (m : List Char),
        contents = records.flatten ++ 'E' :: m ∧ (∀ r ∈ records, Record r) ∧ records.length ≤ 128 := by
  constructor
  · rintro ⟨hends, hfits⟩
    rcases records_of_ends rfl hends with hempty | ⟨records, m, hrest, hrecords⟩
    · exact .inl hempty
    · obtain ⟨k, t, hk, -, -, hlen⟩ := records_iterate malloc hrecords rfl hrest
      refine .inr ⟨records, m, hrest, hrecords, ?_⟩
      have hle := hfits k
      rw [hk, hlen] at hle
      simpa [start, capacity] using hle
  · rintro (⟨rfl, rfl⟩ | ⟨records, m, hrest, hrecords, hle⟩)
    · have hclosed : ((step malloc)^[1] (start [] 'E')).pc = .closed := rfl
      exact ⟨⟨1, hclosed⟩, (fits_iff_ended hclosed).2 (Nat.zero_le _)⟩
    · obtain ⟨k, t, hk, hpc, hm, hlen⟩ := records_iterate malloc (s := start contents type) hrecords rfl hrest
      have hlast : (step malloc)^[k + 1] (start contents type) =
          { t with rest := t.rest.tail, type := 'E', pc := .closed } := by
        rw [Function.iterate_succ_apply', hk]
        exact step_end hpc (by rw [hm]; rfl)
      have hclosed : ((step malloc)^[k + 1] (start contents type)).pc = .closed := by rw [hlast]
      refine ⟨⟨k + 1, hclosed⟩, (fits_iff_ended hclosed).2 ?_⟩
      rw [hlast]
      simpa [hlen, start, capacity] using hle

/-- A file of one line and no `E`. -/
theorem one_line_read_forever : ¬ ∀ (malloc : Nat → Event) (contents : List Char) (type : Char),
    Ends malloc (start contents type) ∧ Fits malloc (start contents type) := by
  intro h
  have hends := (h (fun _ => ⟨'E', 0, 0⟩) ['P', ' ', '1', ' ', '2', '\n'] 'E').1
  rw [← ends_iterate 3] at hends
  exact Stuck.not_ends ⟨by decide, by decide⟩ hends

/-! ## What arrival.c writes -/

/-- The numbers of a line are read, and its end is left. -/
theorem numbers_line (blank e : Event) (htime : -2 ^ 31 ≤ e.time ∧ e.time < 2 ^ 31)
    (hduration : -2 ^ 31 ≤ e.duration ∧ e.duration < 2 ^ 31) (m : List Char) :
    numbers blank e.type (' ' :: decimal e.time ++ ' ' :: decimal e.duration ++ '\n' :: m) = (e, '\n' :: m) := by
  have hspace : ∀ s, scanInt (' ' :: s) = scanInt s := Scan.scanInt_cons_space (by decide)
  have hfirst : scanInt (' ' :: (decimal e.time ++ ' ' :: (decimal e.duration ++ '\n' :: m))) =
      (some e.time, ' ' :: (decimal e.duration ++ '\n' :: m)) := by
    rw [hspace]
    exact Scan.scanInt_decimal htime.1 htime.2 (by simp)
  have hsecond : scanInt (' ' :: (decimal e.duration ++ '\n' :: m)) = (some e.duration, '\n' :: m) := by
    rw [hspace]
    exact Scan.scanInt_decimal hduration.1 hduration.2 (by simp)
  rw [List.append_assoc, List.cons_append, List.cons_append, numbers, hfirst]
  dsimp only
  rw [hsecond]

/-- A line is read back. -/
theorem line_read (malloc : Nat → Event) {e : Event} (hpc : s.pc = .record) (hrest : s.rest = line e ++ m)
    (htype : e.type ≠ 'E') (htime : -2 ^ 31 ≤ e.time ∧ e.time < 2 ^ 31) (hduration : -2 ^ 31 ≤ e.duration ∧ e.duration < 2 ^ 31) :
    ∃ k, (step malloc)^[k] s = { rest := m, type := e.type, stored := s.stored ++ [e], pc := .record } := by
  have hnumbers := numbers_line (malloc s.stored.length) e htime hduration m
  have hleft := (numbers_snd (malloc s.stored.length) e.type _).symm.trans (congrArg Prod.snd hnumbers)
  have hround := record_iterate malloc (v := []) hpc (by simpa [line] using hrest) htype hleft
    List.not_mem_nil
  rwa [hnumbers] at hround

/-- Lines are read back one after the other. -/
theorem lines_read (malloc : Nat → Event) {es : List Event} (htypes : ∀ e ∈ es, e.type ≠ 'E')
    (hints : ∀ e ∈ es, (-2 ^ 31 ≤ e.time ∧ e.time < 2 ^ 31) ∧ -2 ^ 31 ≤ e.duration ∧ e.duration < 2 ^ 31)
    (hpc : s.pc = .record) (hrest : s.rest = es.flatMap line ++ m) :
    ∃ k t, (step malloc)^[k] s = t ∧ t.pc = .record ∧ t.rest = m ∧ t.stored = s.stored ++ es := by
  induction es generalizing s with
  | nil => exact ⟨0, s, rfl, hpc, hrest, (List.append_nil _).symm⟩
  | cons e es ih =>
    obtain ⟨htype, htypes⟩ := List.forall_mem_cons.1 htypes
    obtain ⟨hint, hints⟩ := List.forall_mem_cons.1 hints
    rw [List.flatMap_cons, List.append_assoc] at hrest
    obtain ⟨j, hj⟩ := line_read malloc hpc hrest htype hint.1 hint.2
    obtain ⟨k, t, ht, hpc', hm, hstored⟩ := ih htypes hints
      (s := { rest := es.flatMap line ++ m, type := e.type, stored := s.stored ++ [e], pc := .record }) rfl rfl
    refine ⟨k + j, t, ?_, hpc', hm, ?_⟩
    · rw [Function.iterate_add_apply, hj, ht]
    · rw [hstored, List.append_assoc]
      rfl

/-- **`initEQ` reads back what arrival.c writes**: the queue holds these visitors, as a multiset. -/
theorem initEQ_written (malloc : Nat → Event) (type : Char) (arrivals : List Event)
    (hlength : arrivals.length ≤ 128) (htypes : ∀ e ∈ arrivals, kindOf e.type ≠ none)
    (hints : ∀ e ∈ arrivals, (-2 ^ 31 ≤ e.time ∧ e.time < 2 ^ 31) ∧ -2 ^ 31 ≤ e.duration ∧ e.duration < 2 ^ 31) :
    (∃ N, ∀ fuel ≥ N, initEQ malloc (written arrivals) type fuel = some (Chamber.initEQ arrivals)) ∧
      (Chamber.initEQ arrivals).n = arrivals.length ∧ (Chamber.initEQ arrivals).events = arrivals := by
  have hE : ∀ e ∈ arrivals, e.type ≠ 'E' := by
    intro e he htype
    exact htypes e he (by rw [htype]; rfl)
  obtain ⟨k, t, hk, hpc, hrest, hstored⟩ := lines_read malloc (m := ['E', '\n'])
    (s := start (written arrivals) type) hE hints rfl rfl
  have hlast : (step malloc)^[k + 1] (start (written arrivals) type) =
      { t with rest := ['\n'], type := 'E', pc := .closed } := by
    rw [Function.iterate_succ_apply', hk, step_end hpc (by rw [hrest]; rfl), hrest]
    rfl
  refine ⟨⟨k + 1, fun fuel hfuel => ?_⟩, rfl, Chamber.initEQ_events arrivals⟩
  obtain ⟨j, rfl⟩ := Nat.exists_eq_add_of_le' hfuel
  have hend : (step malloc)^[j + (k + 1)] (start (written arrivals) type) =
      { t with rest := ['\n'], type := 'E', pc := .closed } := by
    rw [Function.iterate_add_apply, hlast, closed_iterate rfl]
  have hall : t.stored = arrivals := hstored
  rw [initEQ, hend]
  dsimp only
  rw [hall, if_pos ⟨rfl, hlength⟩]

/-- A patient before the doctor comes, and a reporter. -/
theorem initEQ_written_two : ∃ E : EventQ, ∃ N,
    (∀ fuel ≥ N, initEQ (fun _ => ⟨'?', 0, 0⟩) (written [⟨'P', -15, 10⟩, ⟨'R', 4, -2⟩]) '?' fuel = some E) ∧
      E.events = ([⟨'R', 4, -2⟩, ⟨'P', -15, 10⟩] : List Event) := by
  obtain ⟨⟨N, hN⟩, -, hevents⟩ := initEQ_written (fun _ => ⟨'?', 0, 0⟩) '?' [⟨'P', -15, 10⟩, ⟨'R', 4, -2⟩] (by decide)
    (by decide) (by decide)
  refine ⟨_, N, hN, hevents.trans ?_⟩
  exact Multiset.coe_eq_coe.2 (List.Perm.swap _ _ _)

end Reader

end OsLab.A6
