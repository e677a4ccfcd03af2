import Mathlib.Data.List.Basic
import OsLab.A8.Frames

/-!
# Least recently used pages (A8/mmu.c)

| here | there |
| --- | --- |
| `Older`, `victimPage_least` | the search for the victim (mmu.c:243-250): strict `<` in ascending order, so the lowest page wins a tie |
| `lastUse`                   | the time stamp (mmu.c:98) of the last request for a page in a history, 0 if there is none |
| `Recency`                   | what `lru_ctr` is to encode: of a page that holds a frame, its last use |

An entry without a frame keeps the `lru_ctr` it had when it was evicted. It is never read: the entry gets
a new one when it gets a frame again.
-/

namespace OsLab.A8

namespace Mmu

variable {k f : Nat} {mi : Fin k → Nat} {s s' : Mmu k} {i : Fin k} {p q : Nat} {r : Request k} {ms : List (MmuMsg k)}

/-! ## The victim -/

/-- The order in which the search prefers the pages of process `i`. -/
def Older (s : Mmu k) (i : Fin k) (p q : Nat) : Prop :=
  (s.entry i p).lruCtr < (s.entry i q).lruCtr ∨ (s.entry i p).lruCtr = (s.entry i q).lruCtr ∧ p < q

/-- The loop over the pages below `n`. -/
theorem foldl_victimStep_range (s : Mmu k) (i : Fin k) (n : Nat)
    (hsmall : ∀ p, p < n → (s.entry i p).frame ≠ -1 → (s.entry i p).lruCtr < intMax) :
    ((List.range n).foldl (s.victimStep i) (intMax, none) = (intMax, none) ∧ ∀ p, p < n → (s.entry i p).frame = -1) ∨
    ∃ v, v < n ∧ (s.entry i v).frame ≠ -1 ∧
      (List.range n).foldl (s.victimStep i) (intMax, none) = ((s.entry i v).lruCtr, some v) ∧
      ∀ p, p < n → (s.entry i p).frame ≠ -1 → p ≠ v → s.Older i v p := by
  induction n with
  | zero => exact .inl ⟨rfl, fun p hp => by omega⟩
  | succ n ih =>
    rw [List.range_succ, List.foldl_append, List.foldl_cons, List.foldl_nil]
    have hn : ∀ p, p < n + 1 → p < n ∨ p = n := fun p hp => by omega
    by_cases hno : (s.entry i n).frame = -1
    · -- page `n` holds no frame and is skipped
      rcases ih fun p hp => hsmall p (by omega) with ⟨hfold, hnone⟩ | ⟨v, hv, hframe, hfold, hleast⟩
      · refine .inl ⟨by rw [hfold, victimStep, if_pos hno], fun p hp => ?_⟩
        rcases hn p hp with hp | rfl
        · exact hnone p hp
        · exact hno
      · refine .inr ⟨v, by omega, hframe, by rw [hfold, victimStep, if_pos hno], fun p hp hres hne => ?_⟩
        rcases hn p hp with hp | rfl
        · exact hleast p hp hres hne
        · exact absurd hno hres
    · rcases ih fun p hp => hsmall p (by omega) with ⟨hfold, hnone⟩ | ⟨v, hv, hframe, hfold, hleast⟩
      · refine .inr ⟨n, by omega, hno, ?_, fun p hp hres hne => ?_⟩
        · rw [hfold, victimStep, if_neg hno, if_pos (hsmall n (by omega) hno)]
        · rcases hn p hp with hp | rfl
          · exact absurd (hnone p hp) hres
          · exact absurd rfl hne
      · rw [hfold, victimStep, if_neg hno]
        split
        · next hlt =>
          refine .inr ⟨n, by omega, hno, rfl, fun p hp hres hne => ?_⟩
          rcases hn p hp with hp | rfl
          · rcases eq_or_ne p v with rfl | hpv
            · exact .inl hlt
            · rcases hleast p hp hres hpv with h | ⟨h, -⟩
              · exact .inl (by simp only at hlt; omega)
              · exact .inl (by simp only at hlt; omega)
          · exact absurd rfl hne
        · next hlt =>
          refine .inr ⟨v, by omega, hframe, rfl, fun p hp hres hne => ?_⟩
          rcases hn p hp with hp | rfl
          · exact hleast p hp hres hne
          · simp only [not_lt] at hlt
            rcases Int.le_iff_lt_or_eq.1 hlt with h | h
            · exact .inl h
            · exact .inr ⟨h, hv⟩

/-- **The victim** comes before all other pages of the process that hold a frame. -/
theorem victimPage_least (I : MmuInv f mi s) (hsmall : ∀ p, (s.entry i p).frame ≠ -1 → (s.entry i p).lruCtr < intMax) :
    (s.victimPage i = none ∧ ∀ p, (s.entry i p).frame = -1) ∨
    ∃ v, s.victimPage i = some v ∧ (s.entry i v).frame ≠ -1 ∧
      ∀ p, (s.entry i p).frame ≠ -1 → p ≠ v → s.Older i v p := by
  have hinside : ∀ p, (s.entry i p).frame ≠ -1 → p < (s.SM1 i).mi := fun p hp => (I.mi i).symm ▸ I.inside i p hp
  rcases s.foldl_victimStep_range i (s.SM1 i).mi fun p _ => hsmall p with ⟨hfold, hnone⟩ | ⟨v, -, hframe, hfold, hleast⟩
  · refine .inl ⟨by rw [victimPage, hfold], fun p => ?_⟩
    by_contra hp
    exact hp (hnone p (hinside p hp))
  · exact .inr ⟨v, by rw [victimPage, hfold], hframe, fun p hp hne => hleast p (hinside p hp) hp hne⟩

theorem victimPage_congr (hmi : (s'.SM1 i).mi = (s.SM1 i).mi) (hentry : ∀ p, s'.entry i p = s.entry i p) :
    s'.victimPage i = s.victimPage i := by
  have hstep : s'.victimStep i = s.victimStep i := by
    funext v p
    simp only [victimStep, hentry]
  rw [victimPage, victimPage, hmi, hstep]

/-! ## What a request leaves of an entry that holds a frame -/

theorem entry_releaseEntry_other {i' : Fin k} (hi : i' ≠ i) (j p : Nat) :
    (releaseEntry i s j).entry i' p = s.entry i' p := by
  unfold releaseEntry
  split
  · rw [entry_modEntry, if_neg fun h => hi h.1, entry_setSM2]
  · rfl

theorem frame_releaseEntry (s : Mmu k) (i : Fin k) (j p : Nat) :
    ((releaseEntry i s j).entry i p).frame = if p = j then -1 else (s.entry i p).frame := by
  unfold releaseEntry
  split
  · next hframe =>
    rw [entry_modEntry, entry_setSM2, entry_setSM2]
    by_cases hp : p = j
    · rw [if_pos ⟨rfl, hp⟩, if_pos hp]
    · rw [if_neg fun h => hp h.2, if_neg hp]
  · next hframe =>
    split
    · next hp => rw [hp]; exact not_ne_iff.1 hframe
    · rfl

theorem entry_release_other (s : Mmu k) {i' : Fin k} (hi : i' ≠ i) (p : Nat) : (s.release i).entry i' p = s.entry i' p := by
  unfold release
  generalize List.range (s.SM1 i).mi = js
  induction js generalizing s with
  | nil => rfl
  | cons j js ih => rw [List.foldl_cons, ih, entry_releaseEntry_other hi]

/-- No page keeps its frame. -/
theorem frame_release (I : MmuInv f mi s) (i : Fin k) (p : Nat) : ((s.release i).entry i p).frame = -1 := by
  have hfold : ∀ (js : List Nat) (s : Mmu k), p ∈ js ∨ (s.entry i p).frame = -1 →
      ((js.foldl (releaseEntry i) s).entry i p).frame = -1 := by
    intro js
    induction js with
    | nil => exact fun s hp => hp.resolve_left List.not_mem_nil
    | cons j js ih =>
      intro s hp
      rw [List.foldl_cons]
      apply ih
      rw [frame_releaseEntry]
      rcases hp with hp | hp
      · rcases List.mem_cons.1 hp with rfl | hp
        · exact .inr (if_pos rfl)
        · exact .inl hp
      · right
        split
        · rfl
        · exact hp
  apply hfold
  by_cases hp : (s.entry i p).frame = -1
  · exact .inr hp
  · exact .inl (List.mem_range.2 ((I.mi i).symm ▸ I.inside i p hp))

theorem release_counters (s : Mmu k) (i : Fin k) :
    (s.release i).count = s.count ∧ (s.release i).terminatedProcesses = s.terminatedProcesses := by
  unfold release
  generalize List.range (s.SM1 i).mi = js
  induction js generalizing s with
  | nil => exact ⟨rfl, rfl⟩
  | cons j js ih =>
    have hentry : (releaseEntry i s j).count = s.count ∧ (releaseEntry i s j).terminatedProcesses = s.terminatedProcesses := by
      unfold releaseEntry
      split <;> exact ⟨rfl, rfl⟩
    rw [List.foldl_cons, (ih _).1, (ih _).2]
    exact hentry

theorem loadPage_counters (s : Mmu k) (i : Fin k) (page ind : Nat) :
    (s.loadPage i page ind).count = s.count ∧ (s.loadPage i page ind).terminatedProcesses = s.terminatedProcesses := by
  unfold loadPage
  split
  · exact ⟨rfl, rfl⟩
  · split <;> exact ⟨rfl, rfl⟩

/-- It is the page that was loaded, or as it was. -/
theorem entry_loadPage {i' : Fin k} {page ind : Nat} (hno : (s.entry i page).frame = -1)
    (hres : ((s.loadPage i page ind).entry i' p).frame ≠ -1) :
    (i' = i ∧ p = page ∧ ((s.loadPage i page ind).entry i' p).lruCtr = s.count) ∨
    (¬ (i' = i ∧ p = page) ∧ (s.loadPage i page ind).entry i' p = s.entry i' p) := by
  unfold loadPage at hres ⊢
  split
  · rw [entry_setSM2, entry_modEntry]
    by_cases h : i' = i ∧ p = page
    · rw [if_pos h]
      exact .inl ⟨h.1, h.2, rfl⟩
    · rw [if_neg h]
      exact .inr ⟨h, rfl⟩
  · next hfull =>
    rw [if_neg hfull] at hres
    split
    · next v hv =>
      rw [hv] at hres
      have hne : page ≠ v := fun e => (victimPage_frame hv).2 (e ▸ hno)
      simp only [entry_replace s i hne] at hres ⊢
      by_cases h : i' = i ∧ p = page
      · rw [if_pos h]
        exact .inl ⟨h.1, h.2, rfl⟩
      · rw [if_neg h] at hres ⊢
        split at hres
        · exact absurd rfl hres
        · next hv' => rw [if_neg hv']; exact .inr ⟨h, rfl⟩
    · next hv =>
      rw [hv] at hres
      refine .inr ⟨?_, rfl⟩
      rintro ⟨rfl, rfl⟩
      exact hres hno

namespace Handled

theorem count (h : Handled f s r s' ms) : s'.count = s.tick.count := by
  cases h with
  | idle | hit => rfl
  | exit | illegal => exact (release_counters s.tick r.pid).1
  | fault page ind => exact (loadPage_counters _ r.pid page ind).1

/-- It is the page that was requested, or as it was. -/
theorem entry (h : Handled f s r s' ms) (I : MmuInv f mi s) (hres : (s'.entry i p).frame ≠ -1) :
    (r = ⟨i, p⟩ ∧ (s'.entry i p).lruCtr = s.tick.count) ∨ (r ≠ ⟨i, p⟩ ∧ s'.entry i p = s.entry i p) := by
  have It := I.tick
  have hrelease : ((s.tick.release r.pid).entry i p).frame ≠ -1 → i ≠ r.pid := by
    rintro h rfl
    exact h (frame_release It _ p)
  obtain ⟨pid, num⟩ := r
  cases h with
  | idle hnum => exact .inr ⟨by rintro ⟨⟩; simp only at hnum; omega, rfl⟩
  | exit hnum =>
    rw [entry_terminate] at hres ⊢
    exact .inr ⟨by rintro ⟨⟩; simp only at hnum; omega, entry_release_other _ (hrelease hres) p⟩
  | illegal h0 hmi =>
    rw [entry_terminate, entry_addInvalidRef] at hres ⊢
    have hi := hrelease hres
    exact .inr ⟨by rintro ⟨⟩; exact hi rfl, entry_release_other _ hi p⟩
  | hit page hnum hlt hframe =>
    simp only at hnum
    rw [entry_modEntry] at hres ⊢
    by_cases h : i = pid ∧ p = page
    · rw [if_pos h]
      obtain ⟨rfl, rfl⟩ := h
      exact .inl ⟨by rw [hnum], rfl⟩
    · rw [if_neg h]
      exact .inr ⟨by rintro ⟨⟩; exact h ⟨rfl, by omega⟩, rfl⟩
  | fault page ind hnum hlt hframe hscan =>
    simp only at hnum
    rcases entry_loadPage (by rw [entry_addPF]; exact hframe) hres with ⟨rfl, rfl, hlru⟩ | ⟨hne, heq⟩
    · exact .inl ⟨by rw [hnum], hlru⟩
    · rw [entry_addPF] at heq
      exact .inr ⟨by rintro ⟨⟩; exact hne ⟨rfl, by omega⟩, heq⟩

end Handled

end Mmu

/-! ## Before the first request -/

namespace Mmu

/-- The MMU has not handled anything. -/
structure Fresh {k : Nat} (s : Mmu k) : Prop where
  count : s.count = 0
  terminated : s.terminatedProcesses = 0
  lruCtr : ∀ i p, (s.entry i p).lruCtr = 0

theorem Fresh.allocPages {k : Nat} (i : Fin k) (q : Int) (js : List Nat) (count : Int) {a : Mmu k × Int} (h : a.1.Fresh) :
    (allocPages i q js count a).1.Fresh := by
  induction js generalizing count a with
  | nil => exact h
  | cons j js ih =>
    obtain ⟨s, fn⟩ := a
    unfold Mmu.allocPages
    split
    · exact h
    · refine ih _ ⟨h.count, h.terminated, fun i' p => ?_⟩
      rw [entry_modEntry, entry_setSM2, entry_setSM2]
      split
      · exact h.lruCtr i j
      · exact h.lruCtr i' p

theorem init_fresh {k : Nat} (f : Nat) (mi : Fin k → Nat) : (init f mi).Fresh := by
  have hfold : ∀ (is : List (Fin k)) (a : Mmu k × Int), a.1.Fresh →
      (is.foldl (fun a i => allocPages i (pageFrames f mi i) (List.range (mi i)) 0 a) a).1.Fresh := by
    intro is
    induction is with
    | nil => exact fun _ h => h
    | cons i is ih => exact fun a h => ih _ (h.allocPages _ _ _ _)
  exact hfold (List.finRange k) (build f mi, 0) ⟨rfl, rfl, fun _ _ => rfl⟩

end Mmu

/-! ## Histories -/

/-- The time stamp of the last request of process `i` for page `p`, 0 if it has made none; `past` is in the order of
the requests. -/
def lastUse {k : Nat} (past : List (Request k)) (i : Fin k) (p : Nat) : Nat := past.length - past.reverse.idxOf ⟨i, p⟩

section
variable {k : Nat} (past : List (Request k)) (r : Request k) (i : Fin k) {p q : Nat}

theorem lastUse_append : lastUse (past ++ [r]) i p = if r = ⟨i, p⟩ then past.length + 1 else lastUse past i p := by
  unfold lastUse
  rw [List.reverse_append, List.reverse_singleton, List.singleton_append, List.idxOf_cons, List.length_append,
    List.length_singleton]
  by_cases h : r = ⟨i, p⟩
  · rw [if_pos h, h, beq_self_eq_true, cond_true, Nat.sub_zero]
  · rw [if_neg h, beq_eq_false_iff_ne.2 h, cond_false, Nat.add_sub_add_right]

theorem lastUse_le : lastUse past i p ≤ past.length := Nat.sub_le _ _

/-- Only pages never requested share a last use. -/
theorem lastUse_eq (h : lastUse past i p = lastUse past i q) (hpq : p ≠ q) : lastUse past i p = 0 := by
  unfold lastUse at h ⊢
  by_contra hpos
  have hmem : (⟨i, p⟩ : Request k) ∈ past.reverse := by
    rw [← List.idxOf_lt_length_iff, List.length_reverse]
    omega
  have hidx : past.reverse.idxOf (⟨i, p⟩ : Request k) = past.reverse.idxOf ⟨i, q⟩ := by omega
  have heq := (List.idxOf_inj hmem).1 hidx
  simp only [Request.mk.injEq, true_and, Nat.cast_inj] at heq
  exact hpq heq

end

structure Recency {k : Nat} (past : List (Request k)) (s : Mmu k) : Prop where
  count : s.count = past.length
  lruCtr : ∀ i p, (s.entry i p).frame ≠ -1 → (s.entry i p).lruCtr = lastUse past i p

namespace Recency

variable {k f : Nat} {mi : Fin k → Nat} {s s' : Mmu k} {past : List (Request k)} {r : Request k} {ms : List (MmuMsg k)}

/-- The frames `master` gives are stamped 0. -/
theorem init (f : Nat) (mi : Fin k → Nat) : Recency [] (Mmu.init f mi) where
  count := (Mmu.init_fresh f mi).count
  lruCtr i p _ := ((Mmu.init_fresh f mi).lruCtr i p).trans (by simp [lastUse])

theorem handled (R : Recency past s) (I : MmuInv f mi s) (hpast : past.length + 1 ≤ intMax) (h : s.Handled f r s' ms) :
    Recency (past ++ [r]) s' := by
  have hcount : s.tick.count = ((past ++ [r]).length : Nat) := by
    show int32 (s.count + 1) = _
    rw [R.count, int32_eq (by omega) hpast, List.length_append, List.length_singleton]
    omega
  refine ⟨h.count.trans hcount, fun i p hres => ?_⟩
  rw [lastUse_append]
  rcases h.entry I hres with ⟨hr, hlru⟩ | ⟨hr, heq⟩
  · rw [if_pos hr, hlru, hcount, List.length_append, List.length_singleton]
  · rw [if_neg hr, heq]
    rw [heq] at hres
    exact R.lruCtr i p hres

end Recency

theorem Mmu.handled_of_step {k f : Nat} {s s' : Mmu k} {r : Request k} (h : s.step f r = some s') :
    ∃ ms, s.Handled f r s' ms := by
  unfold Mmu.step at h
  split at h
  · obtain ⟨⟨t, ms⟩, hh, rfl⟩ := Option.map_eq_some_iff.1 h
    exact ⟨ms, Mmu.handled_of_handle hh⟩
  · cases h

/-- By induction on the history. -/
theorem Recency.of_run {k f : Nat} {mi : Fin k → Nat} {past : List (Request k)} {s : Mmu k}
    (hrun : Trans.run (Mmu.step f) (Mmu.init f mi) past = some s) (hpast : past.length ≤ intMax) :
    MmuInv f mi s ∧ Recency past s := by
  have h := Trans.run_inv (I := fun past s => MmuInv f mi s ∧ (past.length ≤ intMax → Recency past s))
    ⟨.init f mi, fun _ => .init f mi⟩ (by
      rintro past s r s' ⟨I, R⟩ hs
      obtain ⟨ms, hh⟩ := Mmu.handled_of_step hs
      refine ⟨I.step hs, fun hlen => ?_⟩
      rw [List.length_append, List.length_singleton] at hlen
      exact (R (by omega)).handled I (by omega) hh) hrun
  exact ⟨h.1, h.2 hpast⟩

/-- Without a free frame the search stops at the end marker. -/
theorem MmuInv.loadPage_full {k f : Nat} {mi : Fin k → Nat} {s : Mmu k} (I : MmuInv f mi s) {ind : Nat}
    (hscan : freeScan s.SM2 (f + 1) 0 = some ind) (hfull : ∀ g : Int, 0 ≤ g → g < f → s.SM2 g ≠ 1) : s.SM2 ind ≠ 1 := by
  intro hfree
  have hind := (freeScan_le hscan).1
  exact hfull ind (by omega) (I.owns.range_of_one (by omega) (by omega) hfree) hfree

/-- **The least recently used page** of the process makes room; of pages that were never requested the lowest. -/
theorem lru_victim {k : Nat} (f : Nat) (mi : Fin k → Nat) (past : List (Request k)) (s s' : Mmu k) (i : Fin k) (page : Nat)
    (hrun : Trans.run (Mmu.step f) (Mmu.init f mi) past = some s) (hcount : past.length + 1 ≤ intMax)
    (hpage : page < (s.SM1 i).mi) (hs : s.step f ⟨i, page⟩ = some s') (hfault : (s.entry i page).frame = -1)
    (hfull : ∀ g : Int, 0 ≤ g → g < f → s.SM2 g ≠ 1) (hres : ∃ p, (s.entry i p).frame ≠ -1) :
    ∃ v, (s.entry i v).frame ≠ -1 ∧
      (∀ p, (s.entry i p).frame ≠ -1 → p ≠ v → lastUse past i v < lastUse past i p ∨
        lastUse past i v = 0 ∧ lastUse past i p = 0 ∧ v < p) ∧
      (s'.entry i v).frame = -1 ∧ (s'.entry i page).frame = (s.entry i v).frame ∧
      ∀ i' p, ¬ (i' = i ∧ (p = v ∨ p = page)) → s'.entry i' p = s.entry i' p := by
  obtain ⟨I, R⟩ := Recency.of_run hrun (by omega)
  obtain ⟨ms, hh⟩ := Mmu.handled_of_step hs
  have hsmall : ∀ p, (s.entry i p).frame ≠ -1 → (s.entry i p).lruCtr < intMax := by
    intro p hp
    have hle := lastUse_le past i (p := p)
    rw [R.lruCtr i p hp]
    omega
  cases hh with
  | idle hnum => simp only at hnum; omega
  | exit hnum => simp only at hnum; omega
  | illegal h0 hmi => simp only at hmi; omega
  | hit page' hnum hlt hframe =>
    obtain rfl : page = page' := by simpa using hnum
    exact absurd hfault hframe
  | fault page' ind hnum hlt hframe hscan =>
    obtain rfl : page = page' := by simpa using hnum
    rcases Mmu.victimPage_least I hsmall with ⟨-, hnone⟩ | ⟨v, hv, hvres, hleast⟩
    · obtain ⟨p, hp⟩ := hres
      exact absurd (hnone p) hp
    have hne : page ≠ v := fun e => hvres (e ▸ hfault)
    have hload : (s.tick.addPF i).loadPage i page ind = (s.tick.addPF i).replace i page v := by
      have hvictim : (s.tick.addPF i).victimPage i = some v :=
        hv ▸ Mmu.victimPage_congr (s.tick.mi_addPF i i) fun p => s.tick.entry_addPF i i p
      have hnofree : (s.tick.addPF i).SM2 ind ≠ 1 := I.loadPage_full hscan hfull
      rw [Mmu.loadPage, if_neg hnofree, hvictim]
    have hentry := (s.tick.addPF i).entry_replace i hne
    rw [hload]
    refine ⟨v, hvres, fun p hp hpv => ?_, ?_, ?_, fun i' p hip => ?_⟩
    · have holder := hleast p hp hpv
      unfold Mmu.Older at holder
      rw [R.lruCtr i v hvres, R.lruCtr i p hp] at holder
      rcases holder with hlt | ⟨heq, hlt⟩
      · exact .inl (by omega)
      · have heq' : lastUse past i v = lastUse past i p := by omega
        have hzero := lastUse_eq past i heq' hpv.symm
        exact .inr ⟨hzero, by omega, hlt⟩
    · rw [hentry, if_neg fun h => hne h.2.symm, if_pos ⟨rfl, rfl⟩]
    · rw [hentry, if_pos ⟨rfl, rfl⟩]
      show ((s.tick.addPF i).entry i v).frame = _
      rw [Mmu.entry_addPF, Mmu.entry_tick]
    · rw [hentry, if_neg fun h => hip ⟨h.1, .inr h.2⟩, if_neg fun h => hip ⟨h.1, .inl h.2⟩, Mmu.entry_addPF, Mmu.entry_tick]

/-- Of two processes the first holds its pages 0 and 1, requests 0 and the second process's page 0 in between, and then
its page 2: page 1, which it never requested, makes room. -/
theorem lru_victim_preloaded : ∃ s s' : Mmu 2,
    Trans.run (Mmu.step 3) (Mmu.init 3 fun i => if i = 0 then 3 else 1) [⟨0, 0⟩, ⟨1, 0⟩] = some s ∧
    s.step 3 ⟨0, 2⟩ = some s' ∧
    ∃ v, (s.entry 0 v).frame ≠ -1 ∧
      (∀ p, (s.entry 0 p).frame ≠ -1 → p ≠ v → lastUse [⟨0, 0⟩, ⟨1, 0⟩] (0 : Fin 2) v < lastUse [⟨0, 0⟩, ⟨1, 0⟩] (0 : Fin 2) p ∨
        lastUse [⟨0, 0⟩, ⟨1, 0⟩] (0 : Fin 2) v = 0 ∧ lastUse [⟨0, 0⟩, ⟨1, 0⟩] (0 : Fin 2) p = 0 ∧ v < p) ∧
      (s'.entry 0 v).frame = -1 ∧ (s'.entry 0 2).frame = (s.entry 0 v).frame ∧
      ∀ i' p, ¬ (i' = 0 ∧ (p = v ∨ p = 2)) → s'.entry i' p = s.entry i' p := by
  have hrun : (Trans.run (Mmu.step 3) (Mmu.init 3 fun i : Fin 2 => if i = 0 then 3 else 1) [⟨0, 0⟩, ⟨1, 0⟩]).any (fun s =>
      (s.step 3 ⟨0, 2⟩).isSome && decide (2 < (s.SM1 0).mi ∧ (s.entry 0 2).frame = -1 ∧ (s.entry 0 0).frame ≠ -1 ∧
        s.SM2 0 ≠ 1 ∧ s.SM2 1 ≠ 1 ∧ s.SM2 2 ≠ 1)) = true := by decide
  cases hs : Trans.run (Mmu.step 3) (Mmu.init 3 fun i : Fin 2 => if i = 0 then 3 else 1) [⟨0, 0⟩, ⟨1, 0⟩] with
  | none => rw [hs] at hrun; cases hrun
  | some s =>
    rw [hs, Option.any_some, Bool.and_eq_true] at hrun
    obtain ⟨s', hs'⟩ := Option.isSome_iff_exists.1 hrun.1
    obtain ⟨hpage, hfault, hres, h0, h1, h2⟩ := of_decide_eq_true hrun.2
    refine ⟨s, s', rfl, hs', ?_⟩
    refine lru_victim 3 _ _ s s' 0 2 hs (by decide) hpage hs' hfault (fun g hg0 hg => ?_) ⟨0, hres⟩
    have hg' : g = 0 ∨ g = 1 ∨ g = 2 := by omega
    rcases hg' with rfl | rfl | rfl
    · exact h0
    · exact h1
    · exact h2

end OsLab.A8
