import OsLab.A8.Lru

/-!
# The final report of the MMU (A8/mmu.c)

| here | there |
| --- | --- |
| `reportLine`, `report` | the loop that prints the totals (:84-89); it adds `total_PFs` to `total_invalid_refs` first (:85) |
| `arrivals`             | the requests of a run, each with the state it arrives in |
| `Faults`, `Invalid`    | what the two totals are to count |

The totals are right when the loop of requests ends (`totals_eq`). The report adds the page faults to the invalid
references and prints the sum, so it is right for the processes without a page fault only.
-/

namespace OsLab.A8

open Function (update)

/-- A line of the report. -/
structure ReportLine (k : Nat) where
  pid : Fin k
  totalPFs : Nat
  totalInvalidRefs : Nat
deriving DecidableEq

namespace Mmu

variable {k f : Nat} {mi : Fin k → Nat} {s s' : Mmu k} {i : Fin k} {r : Request k} {rs : List (Request k)}
  {ms : List (MmuMsg k)}

def addInvalidRefs (s : Mmu k) (i : Fin k) (n : Nat) : Mmu k :=
  { s with SM1 := update s.SM1 i { s.SM1 i with totalInvalidRefs := (s.SM1 i).totalInvalidRefs + n } }

/-- One round of the loop (mmu.c:85-88). -/
def reportLine (x : Mmu k × List (ReportLine k)) (i : Fin k) : Mmu k × List (ReportLine k) :=
  let s := x.1.addInvalidRefs i (x.1.SM1 i).totalPFs
  (s, x.2 ++ [⟨i, (s.SM1 i).totalPFs, (s.SM1 i).totalInvalidRefs⟩])

/-- The lines printed when the MMU leaves its loop (mmu.c:79-91). -/
def report (s : Mmu k) : Option (List (ReportLine k)) :=
  if k ≤ s.terminatedProcesses then some ((List.finRange k).foldl reportLine (s, [])).2 else none

theorem foldl_reportLine (is : List (Fin k)) (s : Mmu k) (out : List (ReportLine k)) (hnodup : is.Nodup) :
    (is.foldl reportLine (s, out)).2 = out ++ is.map fun i =>
      ⟨i, (s.SM1 i).totalPFs, (s.SM1 i).totalInvalidRefs + (s.SM1 i).totalPFs⟩ := by
  induction is generalizing s out with
  | nil => simp
  | cons i is ih =>
    obtain ⟨hi, hnodup⟩ := List.nodup_cons.1 hnodup
    rw [List.foldl_cons, reportLine, ih _ _ hnodup, List.map_cons, List.append_assoc, List.singleton_append]
    congr 2
    · simp [addInvalidRefs]
    · refine List.map_congr_left fun j hj => ?_
      have hne : j ≠ i := fun e => hi (e ▸ hj)
      simp [addInvalidRefs, hne]

/-- A process has one line. -/
theorem line_of_report {ls : List (ReportLine k)} (h : s.report = some ls) (i : Fin k) :
    (ls.filter fun l => l.pid = i) = [⟨i, (s.SM1 i).totalPFs, (s.SM1 i).totalInvalidRefs + (s.SM1 i).totalPFs⟩] := by
  obtain ⟨-, rfl⟩ := Option.ite_none_right_eq_some.1 h |>.imp id Option.some.inj
  have hone : ((List.finRange k).filter fun j => j = i) = [i] := by
    rw [List.filter_eq, List.count_eq_one_of_mem (List.nodup_finRange k) (List.mem_finRange i), List.replicate_one]
  rw [foldl_reportLine _ _ _ (List.nodup_finRange k), List.nil_append, List.filter_map]
  exact congrArg (List.map _) hone

/-! ## What the totals count -/

/-- The requests of a run, each with the state it arrives in. -/
def arrivals (f : Nat) : Mmu k → List (Request k) → List (Mmu k × Request k)
  | _, [] => []
  | s, r :: rs => (s, r) :: (s.step f r).elim [] fun s' => arrivals f s' rs

/-- Process `i` requests a page below `m_i` that is not resident. -/
def Faults (i : Fin k) (x : Mmu k × Request k) : Prop :=
  x.2.pid = i ∧ 0 ≤ x.2.num ∧ x.2.num < (x.1.SM1 i).mi ∧ (x.1.entry i x.2.num.toNat).frame = -1

/-- Process `i` requests a page that is not below `m_i`. -/
def Invalid (i : Fin k) (x : Mmu k × Request k) : Prop := x.2.pid = i ∧ ((x.1.SM1 i).mi : Int) ≤ x.2.num

instance (i : Fin k) (x : Mmu k × Request k) : Decidable (Faults i x) := inferInstanceAs (Decidable (_ ∧ _))

instance (i : Fin k) (x : Mmu k × Request k) : Decidable (Invalid i x) := inferInstanceAs (Decidable (_ ∧ _))

/-- `total_PFs` and `total_invalid_refs`. -/
def totals (s : Mmu k) (i : Fin k) : Nat × Nat := ((s.SM1 i).totalPFs, (s.SM1 i).totalInvalidRefs)

@[simp] theorem totals_tick (s : Mmu k) (i : Fin k) : s.tick.totals i = s.totals i := rfl
@[simp] theorem totals_terminate (s : Mmu k) (i : Fin k) : s.terminate.totals i = s.totals i := rfl
@[simp] theorem totals_setSM2 (s : Mmu k) (g v : Int) (i : Fin k) : (s.setSM2 g v).totals i = s.totals i := rfl

@[simp] theorem totals_modEntry (s : Mmu k) (i i' : Fin k) (j : Nat) (g) : (s.modEntry i j g).totals i' = s.totals i' := by
  unfold totals modEntry
  by_cases h : i' = i
  · subst h; simp
  · simp [h]

theorem totals_addPF (s : Mmu k) (i i' : Fin k) :
    (s.addPF i).totals i' = ((s.totals i').1 + if i = i' then 1 else 0, (s.totals i').2) := by
  unfold totals addPF
  by_cases h : i' = i
  · subst h; simp
  · simp [h, Ne.symm h]

theorem totals_addInvalidRef (s : Mmu k) (i i' : Fin k) :
    (s.addInvalidRef i).totals i' = ((s.totals i').1, (s.totals i').2 + if i = i' then 1 else 0) := by
  unfold totals addInvalidRef
  by_cases h : i' = i
  · subst h; simp
  · simp [h, Ne.symm h]

theorem totals_release (s : Mmu k) (i i' : Fin k) : (s.release i).totals i' = s.totals i' := by
  unfold release
  generalize List.range (s.SM1 i).mi = js
  induction js generalizing s with
  | nil => rfl
  | cons j js ih =>
    rw [List.foldl_cons, ih, releaseEntry]
    split
    · simp
    · rfl

theorem totals_loadPage (s : Mmu k) (i i' : Fin k) (page ind : Nat) :
    (s.loadPage i page ind).totals i' = s.totals i' := by
  unfold loadPage
  split
  · simp
  · split
    · simp [replace]
    · rfl

theorem not_counted (i : Fin k) (h : r.num < 0) : ¬ Faults i (s, r) ∧ ¬ Invalid i (s, r) :=
  ⟨fun hf => absurd hf.2.1 (not_le.2 h), fun hi => absurd (hi.2.trans_lt h) (by omega)⟩

/-- One request counts for what it is. -/
theorem Handled.totals (h : s.Handled f r s' ms) (i : Fin k) :
    s'.totals i = ((s.totals i).1 + if Faults i (s, r) then 1 else 0, (s.totals i).2 + if Invalid i (s, r) then 1 else 0) := by
  obtain ⟨pid, num⟩ := r
  cases h with
  | idle hnum =>
    obtain ⟨h1, h2⟩ := not_counted (s := s) (r := ⟨pid, num⟩) i (by rw [hnum]; decide)
    simp [h1, h2]
  | exit hnum =>
    obtain ⟨h1, h2⟩ := not_counted (s := s) (r := ⟨pid, num⟩) i (by rw [hnum]; decide)
    simp [h1, h2, totals_release]
  | illegal h0 hmi =>
    simp only at h0 hmi
    have h1 : ¬ Faults i (s, ⟨pid, num⟩) := by
      rintro ⟨rfl, -, hlt, -⟩
      exact absurd hmi (not_le.2 hlt)
    have h2 : Invalid i (s, ⟨pid, num⟩) ↔ pid = i := ⟨And.left, fun h => ⟨h, h ▸ hmi⟩⟩
    simp [h1, h2, totals_addInvalidRef, totals_release]
  | hit page hnum hlt hframe =>
    simp only at hnum hlt hframe
    subst hnum
    have h1 : ¬ Faults i (s, ⟨pid, page⟩) := by
      rintro ⟨rfl, -, -, hno⟩
      exact hframe hno
    have h2 : ¬ Invalid i (s, ⟨pid, page⟩) := by
      rintro ⟨rfl, hle⟩
      simp only at hle
      omega
    simp [h1, h2]
  | fault page ind hnum hlt hframe hscan =>
    simp only at hnum hlt hframe
    subst hnum
    have h1 : Faults i (s, ⟨pid, page⟩) ↔ pid = i := by
      refine ⟨And.left, ?_⟩
      rintro rfl
      exact ⟨rfl, Int.natCast_nonneg page, Int.ofNat_lt.2 hlt, hframe⟩
    have h2 : ¬ Invalid i (s, ⟨pid, page⟩) := by
      rintro ⟨rfl, hle⟩
      simp only at hle
      omega
    simp [h1, h2, totals_loadPage, totals_addPF]

/-- **The totals count what they say** while the MMU is in its loop: by induction on the requests. -/
theorem totals_eq (hrun : Trans.run (step f) s rs = some s') (i : Fin k) :
    s'.totals i = ((s.totals i).1 + (arrivals f s rs).countP (Faults i),
      (s.totals i).2 + (arrivals f s rs).countP (Invalid i)) := by
  induction rs generalizing s with
  | nil =>
    cases hrun
    rfl
  | cons r rs ih =>
    obtain ⟨t, hstep, hrun⟩ := Option.bind_eq_some_iff.1 hrun
    obtain ⟨ms, hh⟩ := handled_of_step hstep
    rw [ih hrun, hh.totals i, arrivals, hstep, Option.elim_some, List.countP_cons, List.countP_cons]
    simp only [decide_eq_true_eq, Prod.mk.injEq]
    omega

theorem totals_allocPages (i i' : Fin k) (q : Int) (js : List Nat) (count : Int) (a : Mmu k × Int) :
    (allocPages i q js count a).1.totals i' = a.1.totals i' := by
  induction js generalizing count a with
  | nil => rfl
  | cons j js ih =>
    obtain ⟨s, fn⟩ := a
    unfold allocPages
    split
    · rfl
    · rw [ih]
      simp

theorem totals_init (f : Nat) (mi : Fin k → Nat) (i : Fin k) : (init f mi).totals i = (0, 0) := by
  have hfold : ∀ (is : List (Fin k)) (a : Mmu k × Int),
      (is.foldl (fun a i => allocPages i (pageFrames f mi i) (List.range (mi i)) 0 a) a).1.totals i = a.1.totals i := by
    intro is
    induction is with
    | nil => exact fun _ => rfl
    | cons j is ih => exact fun a => (ih _).trans (totals_allocPages _ _ _ _ _ _)
  exact hfold (List.finRange k) (build f mi, 0)

end Mmu

/-- **The report is right** for the processes without a page fault, and for no other: behind the page faults of process
`i` it prints its invalid references and its page faults added up. -/
theorem report_right_iff {k : Nat} (f : Nat) (mi : Fin k → Nat) (rs : List (Request k)) (s : Mmu k)
    (ls : List (ReportLine k)) (hrun : Trans.run (Mmu.step f) (Mmu.init f mi) rs = some s) (hend : s.report = some ls)
    (i : Fin k) :
    (ls.filter fun l => l.pid = i) = [⟨i, (Mmu.arrivals f (Mmu.init f mi) rs).countP (Mmu.Faults i),
      (Mmu.arrivals f (Mmu.init f mi) rs).countP (Mmu.Invalid i)⟩] ↔
    ∀ x ∈ Mmu.arrivals f (Mmu.init f mi) rs, ¬ Mmu.Faults i x := by
  have htotals := Mmu.totals_eq hrun i
  rw [Mmu.totals_init, Nat.zero_add, Nat.zero_add, Mmu.totals, Prod.mk.injEq] at htotals
  obtain ⟨hfaults, hinvalid⟩ := htotals
  have hnone : (Mmu.arrivals f (Mmu.init f mi) rs).countP (Mmu.Faults i) = 0 ↔
      ∀ x ∈ Mmu.arrivals f (Mmu.init f mi) rs, ¬ Mmu.Faults i x := by
    simp only [List.countP_eq_zero, decide_eq_true_eq]
  rw [Mmu.line_of_report hend i, hfaults, hinvalid, ← hnone]
  simp

/-- Process 1 pages in vain, process 0 does not page at all. -/
theorem report_right_iff_two : ∃ (s : Mmu 2) (ls : List (ReportLine 2)),
    Trans.run (Mmu.step 2) (Mmu.init 2 fun _ => 2) [⟨0, 0⟩, ⟨1, 1⟩, ⟨0, 2⟩, ⟨1, -9⟩] = some s ∧ s.report = some ls ∧
      (ls.filter fun l => l.pid = 0) = [⟨0, 0, 1⟩] := by
  have hrun : (Trans.run (Mmu.step 2) (Mmu.init 2 fun _ : Fin 2 => 2) [⟨0, 0⟩, ⟨1, 1⟩, ⟨0, 2⟩, ⟨1, -9⟩]).any
      (fun s => s.report.isSome) = true := by decide +kernel
  obtain ⟨s, hs, hsome⟩ := (Option.any_eq_true _ _).1 hrun
  obtain ⟨ls, hls⟩ := Option.isSome_iff_exists.1 hsome
  exact ⟨s, ls, hs, hls, (report_right_iff 2 (fun _ => 2) _ s ls hs hls 0).2 (by decide +kernel)⟩

/-- One process with two pages and one frame: it faults once, makes no invalid reference, and ends. -/
theorem report_adds_faults : ¬ ∀ (f : Nat) (mi : Fin 1 → Nat) (rs : List (Request 1)) (s : Mmu 1) (ls : List (ReportLine 1)),
    Trans.run (Mmu.step f) (Mmu.init f mi) rs = some s → s.report = some ls →
    ∀ i, (ls.filter fun l => l.pid = i) = [⟨i, (Mmu.arrivals f (Mmu.init f mi) rs).countP (Mmu.Faults i),
      (Mmu.arrivals f (Mmu.init f mi) rs).countP (Mmu.Invalid i)⟩] := by
  intro h
  have hrun : (Trans.run (Mmu.step 1) (Mmu.init 1 fun _ : Fin 1 => 2) [⟨0, 1⟩, ⟨0, 1⟩, ⟨0, -9⟩]).any
      (fun s => s.report.any fun ls => (ls.filter fun l => l.pid = 0) ≠ [⟨0, 1, 0⟩]) = true := by decide +kernel
  obtain ⟨s, hs, hrep⟩ := (Option.any_eq_true _ _).1 hrun
  obtain ⟨ls, hls, hne⟩ := (Option.any_eq_true _ _).1 hrep
  exact of_decide_eq_true hne ((h 1 (fun _ => 2) _ s ls hs hls 0).trans (by decide +kernel))

end OsLab.A8
