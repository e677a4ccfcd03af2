import Mathlib.Algebra.Group.Action.Defs
import Mathlib.Algebra.Order.BigOperators.Group.List
import Mathlib.Algebra.Order.Ring.Nat
import OsLab.A8.Mmu
import OsLab.Lib.CString

/-!
# Reference strings (A8/master.c:81-102, A8/process.c)

| here | there |
| --- | --- |
| `render`         | the loop of master.c:83-101 with the pages it draws: decimal numbers with ':' between them |
| `Draw`, `refStr` | the draws of one round and the string they give |
| `Process`        | `process` from the first `strtok` on: its copy of the string, what `strtok` remembers, `token`, the `num` of the messages it has sent |
| `Process.step`   | `run`: to the next `msgsnd`; `reply`: the answer of the MMU; `sched`: `P(sem_sched)` |

`sprintf(s, "%s:%d", s, n)` is taken to append, as it is meant. A process sends the page of its token until it is
granted and then moves on, so its messages follow the replies (`replayed`). The string is drawn with no regard to the
sizes of the two buffers that are to hold it (`fits_iff`).
-/

namespace OsLab.A8

open CString (nul str atoi decimal strtok joined)

/-! ## The string -/

/-- The loop of master.c:83-101 over the pages it draws; `old` is what the memory held. -/
def render (old : List Char) (pages : List Int) : List Char :=
  pages.zipIdx.foldl (fun s x => if x.2 = 0 then decimal x.1 else s ++ ':' :: decimal x.1) old

theorem foldl_append_pages (pages : List Int) (n : Nat) (hn : n ≠ 0) (s : List Char) :
    (pages.zipIdx n).foldl (fun s x => if x.2 = 0 then decimal x.1 else s ++ ':' :: decimal x.1) s =
      s ++ (pages.map decimal).flatMap (':' :: ·) := by
  induction pages generalizing n s with
  | nil => simp
  | cons p pages ih =>
    rw [List.zipIdx_cons, List.foldl_cons, if_neg hn, ih (n + 1) (Nat.succ_ne_zero n)]
    simp

theorem render_eq (old : List Char) {pages : List Int} (hne : pages ≠ []) :
    render old pages = joined ':' (pages.map decimal) := by
  obtain ⟨p, pages, rfl⟩ := List.exists_cons_of_ne_nil hne
  rw [render, List.zipIdx_cons, List.foldl_cons, if_pos rfl, foldl_append_pages pages _ (Nat.succ_ne_zero 0)]
  rfl

/-! ## The process -/

inductive ProcessPc
  /-- at the test of the loop (process.c:66) -/
  | top
  /-- at `msgrcv` -/
  | receive
  /-- at `P(sem_sched)` behind a page fault -/
  | faulted
  /-- `exit(1)` -/
  | exited
  /-- behind the message -9 -/
  | returned
deriving DecidableEq

structure Process where
  refStr : List Char
  save : Nat
  token : Option Nat
  sent : List Int
  pc : ProcessPc
deriving DecidableEq

inductive ProcessAct
  | run
  | reply (num : Int)
  | sched
deriving DecidableEq

namespace Process

/-- `token = strtok(.., ":")`. -/
def nextToken (s : Process) : Process :=
  { s with
    token := (strtok ':' s.refStr s.save).1
    refStr := (strtok ':' s.refStr s.save).2.1
    save := (strtok ':' s.refStr s.save).2.2 }

/-- `strcpy(ref_str, argv[1])` and the first `strtok`; `old` is what the array holds behind the copy. -/
def start (argv1 old : List Char) : Process := nextToken ⟨argv1 ++ nul :: old, 0, none, [], .top⟩

def step (s : Process) : ProcessAct → Option Process
  | .run =>
    if s.pc = .top then
      match s.token with
      | some t => some { s with sent := s.sent ++ [atoi (str s.refStr t)], pc := .receive }
      | none => some { s with sent := s.sent ++ [-9], pc := .returned }
    else none
  | .reply num =>
    if s.pc = .receive then
      if num = -1 then some { s with pc := .faulted }
      else if num = -2 then some { s with pc := .exited }
      else some { s.nextToken with pc := .top }
    else none
  | .sched => if s.pc = .faulted then some { s with pc := .top } else none

/-- The pages from the current token on. -/
inductive Cursor (s : Process) : List Int → Prop
  | done {rest : List Char} : s.token = none → s.refStr.drop s.save = nul :: rest → Cursor s []
  | page {p : Int} {ps : List Int} {t : Nat} {rest : List Char} : s.token = some t → str s.refStr t = decimal p →
      s.refStr.drop s.save = joined ':' (ps.map decimal) ++ nul :: rest → Cursor s (p :: ps)

theorem Cursor.congr {s s' : Process} {ps : List Int} (h : Cursor s ps) (htok : s'.token = s.token)
    (hbuf : s'.refStr = s.refStr) (hsave : s'.save = s.save) : Cursor s' ps := by
  cases h with
  | done h hdrop => exact .done (htok.trans h) (by rw [hbuf, hsave]; exact hdrop)
  | page h hstr hdrop => exact .page (htok.trans h) (by rw [hbuf]; exact hstr) (by rw [hbuf, hsave]; exact hdrop)

/-- A separator or the end of a string is not part of a number. -/
theorem decimal_plain (p : Int) : ∀ c ∈ decimal p, c ≠ ':' ∧ c ≠ nul := by
  intro c hc
  rcases CString.isDigit_or_of_mem hc with rfl | hdigit
  · decide
  · constructor
    · rintro rfl
      exact absurd hdigit (by decide)
    · rintro rfl
      exact absurd hdigit (by decide)

theorem cursor_nextToken {s : Process} {ps : List Int} {rest : List Char}
    (h : s.refStr.drop s.save = joined ':' (ps.map decimal) ++ nul :: rest) : Cursor s.nextToken ps := by
  cases ps with
  | nil =>
    have hend : strtok ':' s.refStr s.save = _ := CString.strtok_end h (by decide)
    exact .done (congrArg Prod.fst hend) (by rw [nextToken, hend]; exact h)
  | cons p ps =>
    obtain ⟨b, q, htok, hstr, hdrop⟩ :=
      CString.strtok_joined h (by decide) (CString.decimal_ne_nil p) (decimal_plain p)
    have hstr' : str s.nextToken.refStr s.save = decimal p := by
      rw [nextToken, htok]
      exact hstr
    have hdrop' : s.nextToken.refStr.drop s.nextToken.save = joined ':' (ps.map decimal) ++ nul :: rest := by
      rw [nextToken, htok]
      exact hdrop
    exact .page (congrArg Prod.fst htok) hstr' hdrop'

theorem Cursor.next {s : Process} {p : Int} {ps : List Int} (h : Cursor s (p :: ps)) : Cursor s.nextToken ps := by
  cases h with
  | page _ _ hdrop => exact cursor_nextToken hdrop

theorem cursor_start {ps : List Int} (hne : ps ≠ []) (old old' : List Char) : Cursor (start (render old ps) old') ps := by
  have hbuf : (render old ps ++ nul :: old').drop 0 = joined ':' (ps.map decimal) ++ nul :: old' := by
    rw [render_eq old hne]
    rfl
  exact cursor_nextToken hbuf

end Process

/-- The answers among the steps of a run. -/
def replies (acts : List ProcessAct) : List Int :=
  acts.filterMap fun
    | .reply num => some num
    | _ => none

/-- How many answers are a frame. -/
def granted (rs : List Int) : Nat := rs.countP fun r => r ≠ -1 ∧ r ≠ -2

theorem granted_append (rs : List Int) (r : Int) :
    granted (rs ++ [r]) = granted rs + if r ≠ -1 ∧ r ≠ -2 then 1 else 0 := by
  simp [granted, List.countP_append, List.countP_singleton]

/-- The process has followed the replies `rs` through the pages `ps`. -/
structure Replays (ps rs : List Int) (s : Process) : Prop where
  le : granted rs ≤ ps.length
  cursor : s.Cursor (ps.drop (granted rs))
  sent : ∀ n, n < s.sent.length → s.sent[n]? = (ps ++ [-9])[granted (rs.take n)]?
  length : s.sent.length = rs.length + if s.pc = .receive ∨ s.pc = .returned then 1 else 0
  exited : s.pc = .exited ↔ -2 ∈ rs
  returned : s.pc = .returned ↔ -9 ∈ s.sent
  last : s.pc ≠ .top → (s.pc = .returned ↔ granted rs = ps.length)

namespace Replays

variable {ps rs : List Int} {s s' : Process}

theorem start (hne : ps ≠ []) (old old' : List Char) : Replays ps [] (Process.start (render old ps) old') where
  le := Nat.zero_le _
  cursor := Process.cursor_start hne old old'
  sent n hn := absurd hn (Nat.not_lt_zero n)
  length := rfl
  exited := by simp [Process.start, Process.nextToken]
  returned := by simp [Process.start, Process.nextToken]
  last h := absurd rfl h

/-- The message for the page of the current token. -/
theorem send (R : Replays ps rs s) (hps : ∀ p ∈ ps, 0 ≤ p ∧ p ≤ intMax) (hpc : s.pc = .top) (h : s.step .run = some s') :
    Replays ps rs s' := by
  have hlen := R.length
  rw [hpc, if_neg (by decide)] at hlen
  have hnine : -9 ∉ s.sent := fun h => absurd (R.returned.2 h) (by rw [hpc]; decide)
  have hexited : -2 ∉ rs := fun h => absurd (R.exited.2 h) (by rw [hpc]; decide)
  -- the message at index `rs.length` has all replies before it
  have hsent : ∀ m : Int, (ps ++ [-9])[granted rs]? = some m → ∀ n, n < (s.sent ++ [m]).length →
      (s.sent ++ [m])[n]? = (ps ++ [-9])[granted (rs.take n)]? := by
    intro m hm n hn
    rw [List.length_append, List.length_singleton] at hn
    rcases Nat.lt_or_ge n s.sent.length with hlt | hge
    · rw [List.getElem?_append_left hlt]
      exact R.sent n hlt
    · obtain rfl : n = s.sent.length := by omega
      rw [List.getElem?_concat_length, hlen, Nat.add_zero, List.take_length, hm]
  have hcursor := R.cursor
  simp only [Process.step, if_pos hpc] at h
  generalize hdrop : ps.drop (granted rs) = qs at hcursor
  cases hcursor with
  | done htok hbuf =>
    rw [htok] at h
    cases h
    have hall : granted rs = ps.length := Nat.le_antisymm R.le (List.drop_eq_nil_iff.1 hdrop)
    refine ⟨R.le, R.cursor.congr htok.symm rfl rfl, hsent (-9) ?_, ?_, ?_, by simp, by simp [hall]⟩
    · rw [hall, List.getElem?_append_right (Nat.le_refl _), Nat.sub_self]
      rfl
    · simp [hlen]
    · simp [hexited]
  | page htok hstr hbuf =>
    next p qs t rest =>
    rw [htok] at h
    cases h
    have hlt : granted rs < ps.length := by
      by_contra hge
      rw [List.drop_eq_nil_of_le (by omega)] at hdrop
      cases hdrop
    have hp : ps[granted rs]? = some p := by rw [← List.head?_drop, hdrop]; rfl
    have hmem := hps p (List.mem_of_getElem? hp)
    unfold intMax at hmem
    have hatoi : atoi (str s.refStr t) = p := by
      rw [hstr, ← List.append_nil (decimal p)]
      exact CString.atoi_decimal (by omega) (by omega) (by simp)
    rw [hatoi]
    refine ⟨R.le, R.cursor.congr htok.symm rfl rfl, hsent p ?_, ?_, ?_, ?_, ?_⟩
    · rw [List.getElem?_append_left hlt, hp]
    · simp [hlen]
    · simp [hexited]
    · simp only [List.mem_append, hnine, List.mem_singleton, false_or]
      exact iff_of_false (by simp) (by omega)
    · exact fun _ => iff_of_false (by simp) (by omega)

/-- A reply moves the cursor if it is a frame. -/
theorem reply (R : Replays ps rs s) {num : Int} (hpc : s.pc = .receive) (h : s.step (.reply num) = some s') :
    Replays ps (rs ++ [num]) s' := by
  have hlen := R.length
  rw [hpc, if_pos (.inl rfl)] at hlen
  have hnine : -9 ∉ s.sent := fun h => absurd (R.returned.2 h) (by rw [hpc]; decide)
  have hexited : -2 ∉ rs := fun h => absurd (R.exited.2 h) (by rw [hpc]; decide)
  have hlt : granted rs < ps.length := by
    have hne := (R.last (by rw [hpc]; decide)).not.1 (by rw [hpc]; decide)
    exact Nat.lt_of_le_of_ne R.le hne
  have hsent : ∀ n, n < s.sent.length → s.sent[n]? = (ps ++ [-9])[granted ((rs ++ [num]).take n)]? := by
    intro n hn
    rw [List.take_append_of_le_length (by omega)]
    exact R.sent n hn
  have hg := granted_append rs num
  simp only [Process.step, if_pos hpc] at h
  split at h
  · next hfault =>
    cases h
    rw [if_neg fun h => h.1 hfault, Nat.add_zero] at hg
    refine ⟨by rw [hg]; exact R.le, by rw [hg]; exact R.cursor.congr rfl rfl rfl, hsent, ?_, ?_, ?_, fun _ => ?_⟩
    · simp [hlen]
    · simp [hexited, hfault]
    · exact iff_of_false (by simp) hnine
    · rw [hg]
      exact iff_of_false (by simp) (by omega)
  split at h
  · next hfault hillegal =>
    cases h
    rw [if_neg fun h => h.2 hillegal, Nat.add_zero] at hg
    refine ⟨by rw [hg]; exact R.le, by rw [hg]; exact R.cursor.congr rfl rfl rfl, hsent, ?_, ?_, ?_, fun _ => ?_⟩
    · simp [hlen]
    · simp [hillegal]
    · exact iff_of_false (by simp) hnine
    · rw [hg]
      exact iff_of_false (by simp) (by omega)
  · next hfault hillegal =>
    cases h
    rw [if_pos ⟨hfault, hillegal⟩] at hg
    refine ⟨by omega, ?_, hsent, ?_, ?_, ?_, fun h => absurd rfl h⟩
    · have hcursor := R.cursor
      rw [List.drop_eq_getElem_cons hlt] at hcursor
      rw [hg]
      exact hcursor.next.congr rfl rfl rfl
    · simp [Process.nextToken, hlen]
    · simp [hexited, hillegal, eq_comm]
    · exact iff_of_false (by simp) hnine

theorem wake (R : Replays ps rs s) (hpc : s.pc = .faulted) : Replays ps rs { s with pc := .top } := by
  have hlen := R.length
  rw [hpc, if_neg (by decide)] at hlen
  refine ⟨R.le, R.cursor.congr rfl rfl rfl, R.sent, hlen, ?_, ?_, fun h => absurd rfl h⟩
  · exact iff_of_false (by simp) fun h => absurd (R.exited.2 h) (by rw [hpc]; decide)
  · exact iff_of_false (by simp) fun h => absurd (R.returned.2 h) (by rw [hpc]; decide)

/-- The messages that were answered with a frame are the first pages of the string. -/
theorem grants (R : Replays ps rs s) :
    ((s.sent.zip rs).filter fun x => x.2 ≠ -1 ∧ x.2 ≠ -2).map Prod.fst = ps.take (granted rs) := by
  have hlen := R.length
  have hzip : (s.sent.zip rs).length = rs.length := by rw [List.length_zip]; omega
  have hfirst : ∀ n, n ≤ rs.length → (((s.sent.zip rs).take n).filter fun x => x.2 ≠ -1 ∧ x.2 ≠ -2).map Prod.fst =
      ps.take (granted (rs.take n)) := by
    intro n hn
    induction n with
    | zero => rfl
    | succ n ih =>
      have hr : n < rs.length := hn
      have hs : n < s.sent.length := by omega
      rw [List.take_succ_eq_append_getElem (hzip ▸ hr), List.take_succ_eq_append_getElem hr, granted_append,
        List.filter_append, List.map_append, ih (Nat.le_of_lt hr), List.getElem_zip]
      by_cases hgrant : rs[n] ≠ -1 ∧ rs[n] ≠ -2
      · have hcount : granted (rs.take (n + 1)) ≤ granted rs := (List.take_sublist (n + 1) rs).countP_le
        rw [List.take_succ_eq_append_getElem hr, granted_append, if_pos hgrant] at hcount
        have hlt : granted (rs.take n) < ps.length := by have := R.le; omega
        have hpage := R.sent n hs
        rw [List.getElem?_eq_getElem hs, List.getElem?_append_left hlt, List.getElem?_eq_getElem hlt,
          Option.some_inj] at hpage
        rw [if_pos hgrant, List.take_succ_eq_append_getElem hlt, ← hpage]
        simp [hgrant]
      · rw [if_neg hgrant, Nat.add_zero]
        simp [hgrant]
  have hall := hfirst rs.length (Nat.le_refl _)
  rwa [List.take_of_length_le (Nat.le_of_eq hzip), List.take_length] at hall

end Replays

/-- By induction on the steps. -/
theorem replays_of_run {ps : List Int} (hne : ps ≠ []) (hps : ∀ p ∈ ps, 0 ≤ p ∧ p ≤ intMax) (old old' : List Char)
    {acts : List ProcessAct} {s : Process} (h : Trans.run Process.step (Process.start (render old ps) old') acts = some s) :
    Replays ps (replies acts) s := by
  refine Trans.run_inv (I := fun acts s => Replays ps (replies acts) s) (.start hne old old') (fun acts s a s' R hs => ?_) h
  have happend : replies (acts ++ [a]) = replies acts ++ replies [a] := List.filterMap_append
  rw [happend]
  cases a with
  | run =>
    have hpc : s.pc = .top := by
      by_contra hpc
      simp [Process.step, hpc] at hs
    rw [show replies [.run] = [] from rfl, List.append_nil]
    exact R.send hps hpc hs
  | reply num =>
    have hpc : s.pc = .receive := by
      by_contra hpc
      simp [Process.step, hpc] at hs
    exact R.reply hpc hs
  | sched =>
    have hpc : s.pc = .faulted := by
      by_contra hpc
      simp [Process.step, hpc] at hs
    rw [show replies [.sched] = [] from rfl, List.append_nil]
    simp only [Process.step, if_pos hpc, Option.some.injEq] at hs
    exact hs ▸ R.wake hpc

theorem Process.stuck_iff (s : Process) : (∀ a, s.step a = none) ↔ s.pc = .exited ∨ s.pc = .returned := by
  constructor
  · intro h
    cases hpc : s.pc with
    | top =>
      have hrun := h .run
      simp only [Process.step, if_pos hpc] at hrun
      split at hrun <;> cases hrun
    | receive => simpa [Process.step, hpc] using h (.reply (-1))
    | faulted => simpa [Process.step, hpc] using h .sched
    | exited => exact .inl rfl
    | returned => exact .inr rfl
  · rintro (hpc | hpc) a <;> cases a <;> simp [Process.step, hpc]

/-- **Reference strings survive encoding and are replayed exactly**: the message behind `n` replies is for the page
behind as many pages as frames are among them, the messages answered with a frame are the pages in order, the process
stops at the first -2, and it sends -9 when the last page is granted and not before. -/
theorem replayed (ps : List Int) (hne : ps ≠ []) (hps : ∀ p ∈ ps, 0 ≤ p ∧ p ≤ intMax) (old old' : List Char)
    (acts : List ProcessAct) (s : Process) (h : Trans.run Process.step (Process.start (render old ps) old') acts = some s) :
    (∀ n, n < s.sent.length → s.sent[n]? = (ps ++ [-9])[granted ((replies acts).take n)]?) ∧
    s.sent.length = (replies acts).length + (if s.pc = .receive ∨ s.pc = .returned then 1 else 0) ∧
    ((s.sent.zip (replies acts)).filter fun x => x.2 ≠ -1 ∧ x.2 ≠ -2).map Prod.fst =
      ps.take (granted (replies acts)) ∧
    ((∀ a, s.step a = none) ↔ -2 ∈ replies acts ∨ -9 ∈ s.sent) ∧
    (s.pc ≠ .top → (-9 ∈ s.sent ↔ granted (replies acts) = ps.length)) := by
  have R := replays_of_run hne hps old old' h
  refine ⟨R.sent, R.length, R.grants, ?_, fun hpc => ?_⟩
  · rw [s.stuck_iff, R.exited, R.returned]
  · rw [← R.returned, R.last hpc]

/-- The first page is sent twice. -/
theorem replayed_fault : ∃ s, Trans.run Process.step (Process.start (render [] [3, 12]) [])
    [.run, .reply (-1), .sched, .run, .reply 4, .run, .reply 0, .run] = some s ∧ s.sent = [3, 3, 12, -9] ∧
      (s.sent.zip [-1, 4, 0]).filter (fun x => x.2 ≠ -1 ∧ x.2 ≠ -2) = [(3, 4), (12, 0)] ∧
      ((∀ a, s.step a = none) ↔ -2 ∈ [(-1 : Int), 4, 0] ∨ -9 ∈ s.sent) := by
  have hrun : (Trans.run Process.step (Process.start (render [] [3, 12]) [])
      [.run, .reply (-1), .sched, .run, .reply 4, .run, .reply 0, .run]).any (fun s => s.sent = [3, 3, 12, -9]) = true := by
    decide +kernel
  obtain ⟨s, hs, hsent⟩ := (Option.any_eq_true _ _).1 hrun
  have hsent := of_decide_eq_true hsent
  obtain ⟨-, -, -, hstuck, -⟩ := replayed [3, 12] (by decide) (by decide) [] [] _ s hs
  exact ⟨s, hs, hsent, by rw [hsent]; decide, hstuck⟩

/-! ## The buffers -/

/-- What a round of the loop draws: whether `(float)rand()/(float)RAND_MAX < PROB_ILLEGAL`, and the next `rand()`. -/
structure Draw where
  illegal : Bool
  rand : Fin (2 ^ 31)

/-- The page of a round (master.c:85, :93). -/
def Draw.page (m mi : Nat) (d : Draw) : Int := if d.illegal then ((d.rand % m : Nat) : Int) else ((d.rand % mi : Nat) : Int)

/-- The reference string of `draws.length` pages. -/
def refStr (old : List Char) (m mi : Nat) (draws : List Draw) : List Char := render old (draws.map (Draw.page m mi))

/-- Lengths and numbers of pages that `master` can draw (master.c:62, :79). -/
def Drawn (m mi x : Nat) : Prop := 1 ≤ mi ∧ mi ≤ m ∧ 2 * mi ≤ x ∧ x ≤ 10 * mi

/-- The digits of the largest page that can be drawn, and the ':' or the end behind them. -/
def width (m : Nat) : Nat := (Nat.toDigits 10 (m - 1)).length + 1

theorem width_le (m : Nat) (hm : 1 ≤ m) : width m ≤ 4 ↔ m ≤ 1000 := by
  have hdigits := Nat.length_toDigits_le_iff (b := 10) (n := m - 1) (k := 3) (by decide) (by decide)
  unfold width
  omega

theorem length_toDigits_mono {a b : Nat} (h : a ≤ b) : (Nat.toDigits 10 a).length ≤ (Nat.toDigits 10 b).length := by
  rw [Nat.length_toDigits_le_iff (by decide) Nat.length_toDigits_pos]
  apply Nat.lt_of_le_of_lt h
  rw [← Nat.length_toDigits_le_iff (by decide) Nat.length_toDigits_pos]

/-- A page takes at most the width of the largest. -/
theorem length_page {m mi : Nat} (hmi : 1 ≤ mi) (hm : mi ≤ m) (d : Draw) : (decimal (d.page m mi)).length + 1 ≤ width m := by
  have hillegal := Nat.mod_lt d.rand.val (show m > 0 by omega)
  have hlegal := Nat.mod_lt d.rand.val (show mi > 0 by omega)
  unfold Draw.page width
  split
  · exact Nat.add_le_add_right (length_toDigits_mono (by omega)) 1
  · exact Nat.add_le_add_right (length_toDigits_mono (by omega)) 1

/-- The string with its terminator takes what its pages take. -/
theorem length_refStr (old : List Char) (m mi : Nat) {draws : List Draw} (hne : draws ≠ []) :
    (refStr old m mi draws).length + 1 = (draws.map fun d => (decimal (d.page m mi)).length + 1).sum := by
  have hpages : draws.map (Draw.page m mi) ≠ [] := by simpa using hne
  rw [refStr, render_eq old hpages, CString.length_joined (by simpa using hpages), List.map_map, List.map_map]
  rfl

/-- All draws alike. -/
theorem length_refStr_replicate (old : List Char) (m mi : Nat) {x : Nat} (hx : 0 < x) (d : Draw) :
    (refStr old m mi (List.replicate x d)).length + 1 = x * ((decimal (d.page m mi)).length + 1) := by
  rw [length_refStr old m mi (by simpa using Nat.ne_of_gt hx), List.map_replicate, List.sum_replicate, smul_eq_mul]

theorem length_refStr_le (old : List Char) {m mi : Nat} (hmi : 1 ≤ mi) (hm : mi ≤ m) {draws : List Draw}
    (hne : draws ≠ []) : (refStr old m mi draws).length + 1 ≤ draws.length * width m := by
  rw [length_refStr old m mi hne]
  have hall := List.sum_le_card_nsmul (draws.map fun d => (decimal (d.page m mi)).length + 1) (width m) fun n hn => by
    obtain ⟨d, -, rfl⟩ := List.mem_map.1 hn
    exact length_page hmi hm d
  rwa [List.length_map, smul_eq_mul] at hall

/-- **The string fits its buffers** whatever is drawn when the pages have at most three digits and 1000 bytes are enough
for `x` of the largest, and only then. -/
theorem fits_iff (m mi x : Nat) (h : Drawn m mi x) :
    (∀ (old : List Char) (draws : List Draw), draws.length = x →
      (refStr old m mi draws).length + 1 ≤ 4 * x ∧ (refStr old m mi draws).length + 1 ≤ 1000) ↔
    m ≤ 1000 ∧ x * width m ≤ 1000 := by
  obtain ⟨hmi, hm, hlow, -⟩ := h
  constructor
  · intro hfits
    have hsmall : m ≤ 1000 := by
      by_contra hlarge
      -- page 1000 in every round
      obtain ⟨hmalloc, -⟩ := hfits [] (List.replicate x ⟨true, 1000⟩) List.length_replicate
      rw [length_refStr_replicate _ _ _ (by omega)] at hmalloc
      have hpage : Draw.page m mi ⟨true, 1000⟩ = 1000 := by
        show (((1000 : Fin (2 ^ 31)).val % m : Nat) : Int) = 1000
        rw [Nat.mod_eq_of_lt (show (1000 : Fin (2 ^ 31)).val < m by show 1000 < m; omega)]
        rfl
      rw [hpage, show (decimal 1000).length + 1 = 5 by decide] at hmalloc
      omega
    refine ⟨hsmall, ?_⟩
    -- the largest page in every round
    obtain ⟨-, hcopy⟩ := hfits [] (List.replicate x ⟨true, ⟨m - 1, by omega⟩⟩) List.length_replicate
    rw [length_refStr_replicate _ _ _ (by omega)] at hcopy
    have hpage : Draw.page m mi ⟨true, ⟨m - 1, by omega⟩⟩ = ((m - 1 : Nat) : Int) := by
      show (((m - 1) % m : Nat) : Int) = _
      rw [Nat.mod_eq_of_lt (by omega)]
    rwa [hpage] at hcopy
  · rintro ⟨hsmall, hcopy⟩ old draws rfl
    have hne : draws ≠ [] := by
      rintro rfl
      simp only [List.length_nil] at hlow
      omega
    have hle := length_refStr_le old hmi hm hne
    have hwidth := Nat.mul_le_mul_left draws.length ((width_le m (by omega)).2 hsmall)
    omega

/-- A hundred pages of one digit. -/
theorem fits_iff_ten : width 10 = 2 ∧ ∀ (old : List Char) (draws : List Draw), draws.length = 100 →
    (refStr old 10 10 draws).length + 1 ≤ 4 * 100 ∧ (refStr old 10 10 draws).length + 1 ≤ 1000 := by
  have hdrawn : Drawn 10 10 100 := ⟨by decide, by decide, by decide, by decide⟩
  exact ⟨by decide, (fits_iff 10 10 100 hdrawn).2 (by decide)⟩

/-- A virtual address space of 1001 pages and two draws of the last one: 10 bytes for 8. -/
theorem refStr_overflows : ¬ ∀ (m mi x : Nat), Drawn m mi x → ∀ (old : List Char) (draws : List Draw), draws.length = x →
    (refStr old m mi draws).length + 1 ≤ 4 * x ∧ (refStr old m mi draws).length + 1 ≤ 1000 := by
  intro h
  have hdrawn : Drawn 1001 1 2 := ⟨by decide, by decide, by decide, by decide⟩
  exact absurd (h 1001 1 2 hdrawn [] [⟨true, 1000⟩, ⟨true, 1000⟩] rfl).1 (by decide +kernel)

end OsLab.A8
