import Mathlib.Algebra.Order.BigOperators.Group.Finset
import OsLab.A7.Exit
import OsLab.Lib.Tally

/-!
# Who gets through `foothread_exit` (A7/foothread.c:55-80)

With `N` joinable threads there are `N + 1` callers of `foothread_exit`, `main` included. The caller that makes
`exited_threads` equal to `num_threads` posts `num_threads` tokens on `exit_sem`, and each of the others takes one: the
`N - 1` before it and the one after it. So when `N` callers have come nobody is left waiting, though one thread
may not have called yet.

`ExitBase` is what the calls keep whatever they find; `ExitOk` says for any callers that nobody is left waiting,
provided the two counters are equal only once (`hiff` of `ExitOk.exit`).
-/

namespace OsLab.A7

open Function (update)

/-- Between `P(mtx)` and `V(mtx)`. -/
def CreatePc.inside : CreatePc → Nat
  | .count | .clone | .unlock => 1
  | .checkMtx | .checkSem | .lock => 0

/-- Between `P(mtx)` and `V(mtx)`. -/
def ExitPc.inside : ExitPc → Nat
  | .incr | .test | .unlockWait | .unlockPost => 1
  | .checkMtx | .checkSem | .lock | .wait | .post _ | .done => 0

/-- Counted by `exited_threads`. -/
def ExitPc.counted : ExitPc → Nat
  | .checkMtx | .checkSem | .lock | .incr => 0
  | .test | .unlockWait | .wait | .unlockPost | .post _ | .done => 1

/-- Through `foothread_exit`. -/
def ExitPc.through : ExitPc → Nat
  | .done => 1
  | .checkMtx | .checkSem | .lock | .incr | .test | .unlockWait | .wait | .unlockPost | .post _ => 0

/-- The tokens that the caller that posts them accounts for; in the end it needs none itself. -/
def ExitPc.posted (N : Nat) : ExitPc → Nat
  | .post i => i
  | .done => N + 1
  | .checkMtx | .checkSem | .lock | .incr | .test | .unlockWait | .wait | .unlockPost => 0

variable {κ : Type} [Fintype κ]

/-- `foothread_create` neither posts nor takes a token. -/
theorem foothreadCreate_keeps {ty : JoinType} {sh sh' : Shared} {p : CreatePc} {p' : Option CreatePc}
    (h : foothreadCreate ty sh p = some (sh', p')) :
    sh'.exitSem.getD 0 = sh.exitSem.getD 0 ∧ sh'.exitedThreads = sh.exitedThreads ∧
      (p ≠ .count → sh'.numThreads = sh.numThreads) := by
  cases p with
  | checkSem =>
    cases h
    dsimp only
    split_ifs with hs <;> simp [hs]
  | lock =>
    obtain ⟨m, -, he⟩ := Option.map_eq_some_iff.1 h
    cases he
    exact ⟨rfl, rfl, fun _ => rfl⟩
  | count =>
    cases h
    exact ⟨rfl, rfl, fun hp => absurd rfl hp⟩
  | checkMtx | clone | unlock =>
    cases h
    exact ⟨rfl, rfl, fun _ => rfl⟩

/-- What `foothread_create` and `foothread_exit` keep whoever finds the counters equal: `cre` is the call of
`foothread_create` under way, `ex` are the calls of `foothread_exit`. -/
structure ExitBase (sh : Shared) (cre : Option CreatePc) (ex : κ → Option ExitPc) : Prop where
  mtx_made : sh.mtx = none → (∀ p, cre = some p → p = .checkMtx) ∧ ∀ k e, ex k = some e → e = .checkMtx
  sem_made : sh.exitSem = none → (∀ p, cre = some p → p = .checkMtx ∨ p = .checkSem) ∧
    ∀ k e, ex k = some e → e = .checkMtx ∨ e = .checkSem
  mtx : sh.mtx.getD 1 + cre.elim 0 CreatePc.inside + ∑ k, (ex k).elim 0 ExitPc.inside = 1
  exited : sh.exitedThreads = ∑ k, (ex k).elim 0 ExitPc.counted

namespace ExitBase

variable {sh sh' : Shared} {cre cre' : Option CreatePc} {ex : κ → Option ExitPc} {k : κ} {e e' : ExitPc}

theorem mtx_some (B : ExitBase sh cre ex) (hk : ex k = some e) (he : e ≠ .checkMtx) : ∃ v, sh.mtx = some v := by
  refine Option.ne_none_iff_exists'.1 fun h => ?_
  exact he ((B.mtx_made h).2 k e hk)

theorem sem_some (B : ExitBase sh cre ex) (hk : ex k = some e) (he : e ≠ .checkMtx ∧ e ≠ .checkSem) :
    ∃ v, sh.exitSem = some v := by
  refine Option.ne_none_iff_exists'.1 fun h => ?_
  exact ((B.sem_made h).2 k e hk).elim he.1 he.2

theorem init : ExitBase ⟨none, none, 0, 0⟩ (some .checkMtx) (fun _ : κ => none) :=
  ⟨fun _ => by simp, fun _ => by simp, by simp [CreatePc.inside], by simp⟩

theorem nextCreate (B : ExitBase sh none ex) : ExitBase sh (some .checkMtx) ex :=
  ⟨fun h => ⟨by simp, (B.mtx_made h).2⟩, fun h => ⟨by simp, (B.sem_made h).2⟩, B.mtx, B.exited⟩

/-! ## Steps of `foothread_create` -/

theorem moveCreate (B : ExitBase sh cre ex)
    (hmtx : sh'.mtx.getD 1 + cre'.elim 0 CreatePc.inside = sh.mtx.getD 1 + cre.elim 0 CreatePc.inside)
    (hmade : sh'.mtx ≠ none)
    (hsemMade : sh'.exitSem = none → sh.exitSem = none ∧ ∀ p, cre' = some p → p = .checkMtx ∨ p = .checkSem)
    (hexited : sh'.exitedThreads = sh.exitedThreads) : ExitBase sh' cre' ex := by
  refine ⟨fun h => absurd h hmade, fun h => ⟨(hsemMade h).2, (B.sem_made (hsemMade h).1).2⟩, ?_, hexited.trans B.exited⟩
  have := B.mtx
  omega

theorem create {ty : JoinType} {p : CreatePc} {p' : Option CreatePc} (B : ExitBase sh (some p) ex)
    (h : foothreadCreate ty sh p = some (sh', p')) : ExitBase sh' p' ex := by
  have hmade : p ≠ .checkMtx → ∃ v, sh.mtx = some v := by
    intro hp
    refine Option.ne_none_iff_exists'.1 fun h => ?_
    exact hp ((B.mtx_made h).1 p rfl)
  have hsemMade : p ≠ .checkMtx → p ≠ .checkSem → ∃ v, sh.exitSem = some v := by
    intro hp hp'
    refine Option.ne_none_iff_exists'.1 fun h => ?_
    exact ((B.sem_made h).1 p rfl).elim hp hp'
  cases p with
  | checkMtx =>
    cases h
    refine B.moveCreate ?_ ?_ (fun h => ⟨h, by simp⟩) rfl
    · split_ifs with hm <;> simp [hm, CreatePc.inside]
    · dsimp only
      split_ifs with hm <;> simp [hm]
  | checkSem =>
    cases h
    obtain ⟨v, hv⟩ := hmade (by simp)
    refine B.moveCreate rfl (by simp [hv]) (fun h => ?_) rfl
    dsimp only at h
    split_ifs at h with hs
    exact absurd h hs
  | lock =>
    obtain ⟨m, hm, he⟩ := Option.map_eq_some_iff.1 h
    cases he
    obtain ⟨v, hv⟩ := hsemMade (by simp) (by simp)
    obtain ⟨u, hmtx, rfl⟩ := semP_some hm
    refine B.moveCreate ?_ (by simp) (fun h => absurd (hv.symm.trans h) (by simp)) rfl
    simp [hmtx, CreatePc.inside]
  | count | clone =>
    cases h
    obtain ⟨u, hu⟩ := hmade (by simp)
    obtain ⟨v, hv⟩ := hsemMade (by simp) (by simp)
    exact B.moveCreate rfl (by simp [hu]) (fun h => absurd (hv.symm.trans h) (by simp)) rfl
  | unlock =>
    cases h
    obtain ⟨u, hu⟩ := hmade (by simp)
    obtain ⟨v, hv⟩ := hsemMade (by simp) (by simp)
    refine B.moveCreate ?_ (by simp [hu, semV]) (fun h => absurd (hv.symm.trans h) (by simp)) rfl
    simp [hu, semV, CreatePc.inside]

/-! ## Callers that block each other -/

theorem stuck_cases (h : foothreadExit sh e = none) : e = .lock ∨ e = .wait ∧ semP sh.exitSem = none ∨ e = .done := by
  cases e with
  | lock => exact .inl rfl
  | wait => exact .inr (.inl ⟨rfl, Option.map_eq_none_iff.1 h⟩)
  | done => exact .inr (.inr rfl)
  | _ => cases h

/-- When no caller can go on, and no create is inside, `mtx` is free. -/
theorem mtx_free (B : ExitBase sh cre ex) (hcre : cre.elim 0 CreatePc.inside = 0)
    (h : ∀ k e, ex k = some e → foothreadExit sh e = none) : sh.mtx.getD 1 = 1 := by
  have hm := B.mtx
  have hzero : ∑ k, (ex k).elim 0 ExitPc.inside = 0 := by
    refine Finset.sum_eq_zero fun k _ => ?_
    cases hk : ex k with
    | none => rfl
    | some e => rcases stuck_cases (h k e hk) with rfl | ⟨rfl, -⟩ | rfl <;> rfl
  rw [hzero, hcre] at hm
  exact hm

/-- When no caller can go on, and no create is inside, the callers that are not through wait for a token. -/
theorem stuck (B : ExitBase sh cre ex) (hcre : cre.elim 0 CreatePc.inside = 0)
    (h : ∀ k e, ex k = some e → foothreadExit sh e = none) (hk : ex k = some e) :
    e = .wait ∧ sh.exitSem.getD 0 = 0 ∨ e = .done := by
  have hfree := B.mtx_free hcre h
  rcases stuck_cases (h k e hk) with rfl | ⟨rfl, hsem⟩ | rfl
  · obtain ⟨v, hv⟩ := B.mtx_some hk (by simp)
    obtain rfl : v = 1 := by simpa [hv] using hfree
    have hnone := h k _ hk
    simp [foothreadExit, hv, semP] at hnone
  · exact .inl ⟨rfl, semP_eq_none.1 hsem⟩
  · exact .inr rfl

/-! ## Steps of `foothread_exit` -/

variable [DecidableEq κ]

theorem sum_update (f : ExitPc → Nat) (hk : ex k = some e) (e' : ExitPc) :
    ∑ j, (update ex k (some e') j).elim 0 f + f e = ∑ j, (ex j).elim 0 f + f e' := by
  have h := Tally.sum_update (fun _ (x : Option ExitPc) => x.elim 0 f) ex k (some e')
  rw [hk] at h
  exact h

theorem sum_call (f : ExitPc → Nat) (hk : ex k = none) (hf : f .checkMtx = 0) :
    ∑ j, (update ex k (some .checkMtx) j).elim 0 f = ∑ j, (ex j).elim 0 f := by
  have h := Tally.sum_update (fun _ (x : Option ExitPc) => x.elim 0 f) ex k (some .checkMtx)
  rw [hk] at h
  simpa [hf] using h

/-- `P(mtx)` ... `V(mtx)` is exclusive. -/
theorem alone (B : ExitBase sh cre ex) (hk : ex k = some e) (he : e.inside = 1) :
    sh.mtx.getD 1 = 0 ∧ cre.elim 0 CreatePc.inside = 0 ∧ ∀ j d, ex j = some d → d.inside = 1 → j = k := by
  have hsum : ∀ s : Finset κ, ∑ j ∈ s, (ex j).elim 0 ExitPc.inside ≤ ∑ j, (ex j).elim 0 ExitPc.inside := fun s =>
    Finset.sum_le_sum_of_subset (Finset.subset_univ s)
  have h1 := hsum {k}
  have hk1 : (ex k).elim 0 ExitPc.inside = 1 := by rw [hk]; exact he
  rw [Finset.sum_singleton, hk1] at h1
  have hm := B.mtx
  refine ⟨by omega, by omega, fun j d hj hd => ?_⟩
  by_contra hne
  have h2 := hsum {j, k}
  have hj1 : (ex j).elim 0 ExitPc.inside = 1 := by rw [hj]; exact hd
  rw [Finset.sum_pair hne, hj1, hk1] at h2
  omega

theorem move (B : ExitBase sh cre ex) (hk : ex k = some e)
    (hmtx : sh'.mtx.getD 1 + e'.inside = sh.mtx.getD 1 + e.inside) (hmade : sh'.mtx ≠ none)
    (hsemMade : sh'.exitSem = none → sh.exitSem = none ∧ (e' = .checkMtx ∨ e' = .checkSem))
    (hexited : sh'.exitedThreads + e.counted = sh.exitedThreads + e'.counted) : ExitBase sh' cre (update ex k (some e')) := by
  have hsum := sum_update ExitPc.inside hk e'
  have hsumC := sum_update ExitPc.counted hk e'
  refine ⟨fun h => absurd h hmade, fun h => ⟨(B.sem_made (hsemMade h).1).1, fun j d hj => ?_⟩, ?_, ?_⟩
  · rcases Tally.update_eq_some.1 hj with ⟨-, rfl⟩ | ⟨-, h'⟩
    · exact (hsemMade h).2
    · exact (B.sem_made (hsemMade h).1).2 j d h'
  · have := B.mtx
    omega
  · have := B.exited
    omega

/-- A thread calls `foothread_exit`. -/
theorem call (B : ExitBase sh cre ex) (hk : ex k = none) : ExitBase sh cre (update ex k (some .checkMtx)) := by
  have hother : ∀ j d, update ex k (some .checkMtx) j = some d → d = .checkMtx ∨ ex j = some d := by
    intro j d hj
    exact (Tally.update_eq_some.1 hj).imp (fun h => h.2.symm) And.right
  refine ⟨fun h => ⟨(B.mtx_made h).1, fun j d hj => ?_⟩, fun h => ⟨(B.sem_made h).1, fun j d hj => ?_⟩, ?_, ?_⟩
  · exact (hother j d hj).elim id ((B.mtx_made h).2 j d)
  · exact (hother j d hj).elim .inl ((B.sem_made h).2 j d)
  · rw [sum_call _ hk rfl]
    exact B.mtx
  · rw [sum_call _ hk rfl]
    exact B.exited

theorem exit (B : ExitBase sh cre ex) (hk : ex k = some e) (h : foothreadExit sh e = some (sh', e')) :
    ExitBase sh' cre (update ex k (some e')) := by
  cases e with
  | checkMtx =>
    cases h
    refine B.move hk ?_ ?_ (fun h => ⟨h, .inr rfl⟩) rfl
    · split_ifs with hm <;> simp [hm, ExitPc.inside]
    · dsimp only
      split_ifs with hm <;> simp [hm]
  | checkSem =>
    cases h
    obtain ⟨v, hv⟩ := B.mtx_some hk (by simp)
    refine B.move hk rfl (by simp [hv]) (fun h => ?_) rfl
    dsimp only at h
    split_ifs at h with hs
    exact absurd h hs
  | lock =>
    obtain ⟨m, hm, he⟩ := Option.map_eq_some_iff.1 h
    cases he
    obtain ⟨v, hv⟩ := B.sem_some hk (by simp)
    obtain ⟨u, hmtx, rfl⟩ := semP_some hm
    refine B.move hk ?_ (by simp) (fun h => absurd (hv.symm.trans h) (by simp)) rfl
    simp [hmtx, ExitPc.inside]
  | incr =>
    cases h
    obtain ⟨u, hu⟩ := B.mtx_some hk (by simp)
    obtain ⟨v, hv⟩ := B.sem_some hk (by simp)
    exact B.move hk rfl (by simp [hu]) (fun h => absurd (hv.symm.trans h) (by simp)) rfl
  | test =>
    cases h
    obtain ⟨u, hu⟩ := B.mtx_some hk (by simp)
    obtain ⟨v, hv⟩ := B.sem_some hk (by simp)
    split_ifs
    · exact B.move hk rfl (by simp [hu]) (fun h => absurd (hv.symm.trans h) (by simp)) rfl
    · exact B.move hk rfl (by simp [hu]) (fun h => absurd (hv.symm.trans h) (by simp)) rfl
  | unlockWait | unlockPost =>
    cases h
    obtain ⟨u, hu⟩ := B.mtx_some hk (by simp)
    obtain ⟨v, hv⟩ := B.sem_some hk (by simp)
    refine B.move hk ?_ (by simp [hu, semV]) (fun h => absurd (hv.symm.trans h) (by simp)) rfl
    simp [hu, semV, ExitPc.inside]
  | wait =>
    obtain ⟨v, hv, he⟩ := Option.map_eq_some_iff.1 h
    cases he
    obtain ⟨u, hu⟩ := B.mtx_some hk (by simp)
    obtain ⟨w, -, rfl⟩ := semP_some hv
    exact B.move hk rfl (by simp [hu]) (fun h => by cases h) rfl
  | post i =>
    obtain ⟨u, hu⟩ := B.mtx_some hk (by simp)
    obtain ⟨v, hv⟩ := B.sem_some hk (by simp)
    rw [foothreadExit] at h
    split_ifs at h with hi
    · cases h
      exact B.move hk rfl (by simp [hu]) (fun h => by simp [hv, semV] at h) rfl
    · cases h
      exact B.move hk rfl (by simp [hu]) (fun h => absurd (hv.symm.trans h) (by simp)) rfl
  | done => cases h

end ExitBase

/-- Nobody has found the counters equal. -/
structure Unposted (sh : Shared) (ex : κ → Option ExitPc) (N : Nat) : Prop where
  sem : sh.exitSem.getD 0 = 0
  waiting : ∀ k e, ex k = some e → e ≠ .unlockPost ∧ (∀ i, e ≠ .post i) ∧ e ≠ .done
  few : sh.exitedThreads < N ∨ sh.exitedThreads = N ∧ ∃ k, ex k = some .test

/-- Caller `w` has found the counters equal. -/
structure Posted (sh : Shared) (ex : κ → Option ExitPc) (N : Nat) (w : κ) : Prop where
  num : sh.numThreads = N
  many : N ≤ sh.exitedThreads
  late : ∀ k, ex k = some .test → N < sh.exitedThreads
  others : ∀ k e, ex k = some e → k ≠ w → e ≠ .unlockPost ∧ ∀ i, e ≠ .post i
  poster : ∃ e, ex w = some e ∧ (e = .unlockPost ∨ (∃ i, e = .post i ∧ i ≤ N) ∨ e = .done) ∧
    sh.exitSem.getD 0 + ∑ k, (ex k).elim 0 ExitPc.through = e.posted N

/-- `cre` is the call of `foothread_create` under way, `ex` are the calls of `foothread_exit`. -/
structure ExitOk (sh : Shared) (cre : Option CreatePc) (ex : κ → Option ExitPc) (N : Nat) : Prop where
  base : ExitBase sh cre ex
  tokens : Unposted sh ex N ∨ ∃ w, Posted sh ex N w

namespace ExitOk

variable {sh sh' : Shared} {cre : Option CreatePc} {ex : κ → Option ExitPc} {N : Nat} {k : κ} {e e' : ExitPc}

theorem init (hN : 0 < N) : ExitOk ⟨none, none, 0, 0⟩ (some .checkMtx) (fun _ : κ => none) N :=
  ⟨.init, .inl ⟨rfl, by simp, .inl hN⟩⟩

theorem nextCreate (E : ExitOk sh none ex N) : ExitOk sh (some .checkMtx) ex N := ⟨E.base.nextCreate, E.tokens⟩

/-- A step of `foothread_create`; `hlt`: it does not count more than `N` threads. -/
theorem create {p : CreatePc} {p' : Option CreatePc} (E : ExitOk sh (some p) ex N)
    (h : foothreadCreate .joinable sh p = some (sh', p')) (hlt : p = .count → sh.numThreads < N) : ExitOk sh' p' ex N := by
  refine ⟨E.base.create h, ?_⟩
  obtain ⟨hsem, hexited, hkeep⟩ := foothreadCreate_keeps h
  rcases E.tokens with U | ⟨w, P⟩
  · exact .inl ⟨hsem.trans U.sem, U.waiting, by rw [hexited]; exact U.few⟩
  · have hnum : sh'.numThreads = sh.numThreads := hkeep fun hp => absurd P.num (Nat.ne_of_lt (hlt hp))
    exact .inr ⟨w, hnum.trans P.num, by rw [hexited]; exact P.many, by rw [hexited]; exact P.late, P.others,
      by rw [hsem]; exact P.poster⟩

variable [DecidableEq κ]

theorem call (E : ExitOk sh cre ex N) (hk : ex k = none) : ExitOk sh cre (update ex k (some .checkMtx)) N := by
  refine ⟨E.base.call hk, ?_⟩
  have hother : ∀ j d, update ex k (some .checkMtx) j = some d → d = .checkMtx ∨ ex j = some d := by
    intro j d hj
    exact (Tally.update_eq_some.1 hj).imp (fun h => h.2.symm) And.right
  have hkeep : ∀ j d, ex j = some d → update ex k (some .checkMtx) j = some d := by
    intro j d hj
    rw [Function.update_of_ne, hj]
    rintro rfl
    rw [hk] at hj
    cases hj
  rcases E.tokens with U | ⟨w, P⟩
  · refine .inl ⟨U.sem, fun j d hj => ?_, U.few.imp_right fun h => ⟨h.1, ?_⟩⟩
    · rcases hother j d hj with rfl | h
      · simp
      · exact U.waiting j d h
    · obtain ⟨j, hj⟩ := h.2
      exact ⟨j, hkeep j _ hj⟩
  · right
    obtain ⟨d, hw, hd, htok⟩ := P.poster
    refine ⟨w, P.num, P.many, fun j hj => P.late j ?_, fun j c hj hjw => ?_, d, hkeep w d hw, hd,
      by rwa [ExitBase.sum_call _ hk rfl]⟩
    · exact (hother j _ hj).resolve_left (by simp)
    · rcases hother j c hj with rfl | h
      · simp
      · exact P.others j c h hjw

/-! ## The tokens -/

omit [DecidableEq κ] in
/-- The caller that has found the counters equal is not at `e`. -/
theorem ne_poster {w : κ} (P : Posted sh ex N w) (hk : ex k = some e)
    (he : e ≠ .unlockPost ∧ (∀ i, e ≠ .post i) ∧ e ≠ .done) : w ≠ k := by
  rintro rfl
  obtain ⟨d, hw, hd, -⟩ := P.poster
  obtain rfl : e = d := Option.some.inj (hk.symm.trans hw)
  rcases hd with rfl | ⟨i, rfl, -⟩ | rfl
  · exact he.1 rfl
  · exact he.2.1 i rfl
  · exact he.2.2 rfl

/-- A step of another caller: what it takes or leaves is accounted for. -/
theorem posted_step {w : κ} (P : Posted sh ex N w) (hk : ex k = some e) (hwk : w ≠ k)
    (hnum : sh'.numThreads = sh.numThreads) (hmany : sh.exitedThreads ≤ sh'.exitedThreads)
    (hlate : e' = .test → N < sh'.exitedThreads) (hin' : e' ≠ .unlockPost ∧ ∀ i, e' ≠ .post i)
    (htok : sh'.exitSem.getD 0 + e'.through = sh.exitSem.getD 0 + e.through) : Posted sh' (update ex k (some e')) N w := by
  obtain ⟨d, hw, hd, hposted⟩ := P.poster
  have hsumT := ExitBase.sum_update ExitPc.through hk e'
  refine ⟨hnum.trans P.num, P.many.trans hmany, fun j hj => ?_, fun j c hj hjw => ?_, d, ?_, hd, ?_⟩
  · rcases Tally.update_eq_some.1 hj with ⟨-, h⟩ | ⟨-, h⟩
    · exact hlate h
    · exact (P.late j h).trans_le hmany
  · rcases Tally.update_eq_some.1 hj with ⟨-, rfl⟩ | ⟨-, h⟩
    · exact hin'
    · exact P.others j c h hjw
  · rw [Function.update_of_ne hwk, hw]
  · omega

/-- A step before the comparison or behind it. -/
theorem advance (E : ExitOk sh cre ex N) (hk : ex k = some e) (hsem : sh'.exitSem.getD 0 = sh.exitSem.getD 0)
    (hnum : sh'.numThreads = sh.numThreads) (hexited : sh'.exitedThreads = sh.exitedThreads)
    (hin : e ≠ .test ∧ e ≠ .unlockPost ∧ (∀ i, e ≠ .post i) ∧ e ≠ .done)
    (hin' : e' ≠ .test ∧ e' ≠ .unlockPost ∧ (∀ i, e' ≠ .post i) ∧ e' ≠ .done) :
    Unposted sh' (update ex k (some e')) N ∨ ∃ w, Posted sh' (update ex k (some e')) N w := by
  have hthrough : ∀ d : ExitPc, d ≠ .done → d.through = 0 := by
    intro d hd
    cases d <;> first | rfl | exact absurd rfl hd
  rcases E.tokens with U | ⟨w, P⟩
  · have hfew := U.few
    rw [← hexited] at hfew
    refine .inl ⟨hsem.trans U.sem, fun j d hj => ?_, hfew.imp_right fun h => ⟨h.1, ?_⟩⟩
    · rcases Tally.update_eq_some.1 hj with ⟨-, rfl⟩ | ⟨-, h'⟩
      · exact hin'.2
      · exact U.waiting j d h'
    · obtain ⟨j, hj⟩ := h.2
      refine ⟨j, ?_⟩
      rw [Function.update_of_ne, hj]
      rintro rfl
      exact hin.1 (Option.some.inj (hk.symm.trans hj))
  · refine .inr ⟨w, posted_step P hk (ne_poster P hk hin.2) hnum hexited.ge (fun h => absurd h hin'.1)
      ⟨hin'.2.1, hin'.2.2.1⟩ ?_⟩
    rw [hsem, hthrough e hin.2.2.2, hthrough e' hin'.2.2.2]

theorem incr (E : ExitOk sh cre ex N) (hk : ex k = some .incr) :
    Unposted { sh with exitedThreads := sh.exitedThreads + 1 } (update ex k (some .test)) N ∨
      ∃ w, Posted { sh with exitedThreads := sh.exitedThreads + 1 } (update ex k (some .test)) N w := by
  obtain ⟨-, -, halone⟩ := E.base.alone hk rfl
  -- nobody else is in the critical section
  have hnotest : ∀ j, ex j ≠ some .test := by
    intro j hj
    obtain rfl := halone j _ hj rfl
    rw [hk] at hj
    cases hj
  rcases E.tokens with U | ⟨w, P⟩
  · refine .inl ⟨U.sem, fun j d hj => ?_, ?_⟩
    · rcases Tally.update_eq_some.1 hj with ⟨-, rfl⟩ | ⟨-, hj⟩
      · simp
      · exact U.waiting j d hj
    · have hlt : sh.exitedThreads < N := U.few.resolve_right fun h => by
        obtain ⟨j, hj⟩ := h.2
        exact hnotest j hj
      rcases Nat.lt_or_ge (sh.exitedThreads + 1) N with h | h
      · exact .inl h
      · exact .inr ⟨show sh.exitedThreads + 1 = N by omega, k, by simp⟩
  · exact .inr ⟨w, posted_step P hk (ne_poster P hk (by simp)) rfl (Nat.le_succ _)
      (fun _ => Nat.lt_succ_of_le P.many) (by simp) rfl⟩

/-- The comparison: the caller that makes the number up becomes the one that posts. -/
theorem test (E : ExitOk sh cre ex N) (hk : ex k = some .test) (hiff : sh.exitedThreads = sh.numThreads ↔ sh.exitedThreads = N) :
    Unposted sh (update ex k (some (if sh.exitedThreads ≠ sh.numThreads then .unlockWait else .unlockPost))) N ∨
      ∃ w, Posted sh (update ex k (some (if sh.exitedThreads ≠ sh.numThreads then .unlockWait else .unlockPost))) N w := by
  obtain ⟨-, -, halone⟩ := E.base.alone hk rfl
  have hnotest : ∀ (e' : ExitPc) j, e' ≠ .test → update ex k (some e') j ≠ some .test := by
    intro e' j he' hj
    rcases Tally.update_eq_some.1 hj with ⟨-, he⟩ | ⟨hjk, hj⟩
    · exact he' he
    · exact hjk (halone j _ hj rfl)
  split_ifs with hne
  · rcases E.tokens with U | ⟨w, P⟩
    · refine .inl ⟨U.sem, fun j d hj => ?_, .inl ?_⟩
      · rcases Tally.update_eq_some.1 hj with ⟨-, rfl⟩ | ⟨-, hj⟩
        · simp
        · exact U.waiting j d hj
      · exact U.few.resolve_right fun h => hne (hiff.2 h.1)
    · exact .inr ⟨w, posted_step P hk (ne_poster P hk (by simp)) rfl le_rfl (by simp) (by simp) rfl⟩
  · have heq : sh.exitedThreads = sh.numThreads := not_not.1 hne
    have hN : sh.exitedThreads = N := hiff.1 heq
    have hU : Unposted sh ex N := E.tokens.resolve_right fun ⟨w, P⟩ => absurd (P.late k hk) (by omega)
    refine .inr ⟨k, heq.symm.trans hN, hN.ge, fun j hj => absurd hj (hnotest _ j (by simp)), fun j d hj hjk => ?_,
      .unlockPost, by simp, .inl rfl, ?_⟩
    · rw [Function.update_of_ne hjk] at hj
      exact ⟨(hU.waiting j d hj).1, (hU.waiting j d hj).2.1⟩
    · have hsumT := ExitBase.sum_update ExitPc.through hk .unlockPost
      have hnone : ∑ j, (ex j).elim 0 ExitPc.through = 0 := by
        refine Finset.sum_eq_zero fun j _ => ?_
        cases hj : ex j with
        | none => rfl
        | some d =>
          have hd := (hU.waiting j d hj).2.2
          cases d <;> first | rfl | exact absurd rfl hd
      have hsem := hU.sem
      simp only [ExitPc.through, ExitPc.posted] at hsumT ⊢
      omega

omit [DecidableEq κ] in
theorem le_of_post {w : κ} (P : Posted sh ex N w) {i : Nat} (hw : ex w = some (.post i)) : i ≤ N := by
  obtain ⟨d, hd, hcases, -⟩ := P.poster
  obtain rfl : ExitPc.post i = d := Option.some.inj (hw.symm.trans hd)
  rcases hcases with h | ⟨j, h, hj⟩ | h
  · cases h
  · cases h
    exact hj
  · cases h

omit [DecidableEq κ] in
/-- Where the caller that posts is, any other one is not. -/
theorem posted_of (E : ExitOk sh cre ex N) (hk : ex k = some e) (he : e = .unlockPost ∨ ∃ i, e = .post i) :
    Posted sh ex N k := by
  rcases E.tokens with U | ⟨w, P⟩
  · obtain ⟨h1, h2, -⟩ := U.waiting k e hk
    rcases he with rfl | ⟨i, rfl⟩
    · exact absurd rfl h1
    · exact absurd rfl (h2 i)
  · obtain rfl : w = k := by
      by_contra hne
      obtain ⟨h1, h2⟩ := P.others k e hk (Ne.symm hne)
      rcases he with rfl | ⟨i, rfl⟩
      · exact h1 rfl
      · exact h2 i rfl
    exact P

/-- The caller that posts goes on. -/
theorem poster (P : Posted sh ex N k) (hk : ex k = some e) (hnum : sh'.numThreads = sh.numThreads)
    (hexited : sh'.exitedThreads = sh.exitedThreads) (he' : (∃ i, e' = .post i ∧ i ≤ N) ∨ e' = .done)
    (htok : sh.exitSem.getD 0 + e'.posted N + e.through = sh'.exitSem.getD 0 + e.posted N + e'.through) :
    Posted sh' (update ex k (some e')) N k := by
  have hsumT := ExitBase.sum_update ExitPc.through hk e'
  obtain ⟨d, hw, -, hposted⟩ := P.poster
  obtain rfl : e = d := Option.some.inj (hk.symm.trans hw)
  refine ⟨hnum.trans P.num, by rw [hexited]; exact P.many, fun j hj => ?_, fun j c hj hjk => ?_, e', by simp, .inr he', ?_⟩
  · rw [hexited]
    by_cases hjk : j = k
    · rw [hjk, Function.update_self] at hj
      rcases he' with ⟨i, rfl, -⟩ | rfl <;> cases hj
    · rw [Function.update_of_ne hjk] at hj
      exact P.late j hj
  · rw [Function.update_of_ne hjk] at hj
    exact P.others j c hj hjk
  · omega

/-- A step of a caller of `foothread_exit`; `hiff`: the counters are equal only when all of the joinable threads are
counted. -/
theorem exit (E : ExitOk sh cre ex N) (hk : ex k = some e) (h : foothreadExit sh e = some (sh', e'))
    (hiff : e = .test → (sh.exitedThreads = sh.numThreads ↔ sh.exitedThreads = N)) :
    ExitOk sh' cre (update ex k (some e')) N ∧ sh'.numThreads = sh.numThreads := by
  have hbase := E.base.exit hk h
  cases e with
  | checkMtx =>
    cases h
    exact ⟨⟨hbase, E.advance hk rfl rfl rfl (by simp) (by simp)⟩, rfl⟩
  | checkSem =>
    cases h
    refine ⟨⟨hbase, E.advance hk ?_ rfl rfl (by simp) (by simp)⟩, rfl⟩
    dsimp only
    split_ifs with hs <;> simp [hs]
  | lock =>
    obtain ⟨m, -, he⟩ := Option.map_eq_some_iff.1 h
    cases he
    exact ⟨⟨hbase, E.advance hk rfl rfl rfl (by simp) (by simp)⟩, rfl⟩
  | incr =>
    cases h
    exact ⟨⟨hbase, E.incr hk⟩, rfl⟩
  | test =>
    cases h
    exact ⟨⟨hbase, E.test hk (hiff rfl)⟩, rfl⟩
  | unlockWait =>
    cases h
    exact ⟨⟨hbase, E.advance hk rfl rfl rfl (by simp) (by simp)⟩, rfl⟩
  | wait =>
    obtain ⟨v, hv, he⟩ := Option.map_eq_some_iff.1 h
    cases he
    obtain ⟨u, hsem, rfl⟩ := semP_some hv
    refine ⟨⟨hbase, ?_⟩, rfl⟩
    rcases E.tokens with U | ⟨w, P⟩
    · have hzero := U.sem
      rw [hsem] at hzero
      cases hzero
    · refine .inr ⟨w, posted_step P hk (ne_poster P hk (by simp)) rfl le_rfl (by simp) (by simp) ?_⟩
      simp [hsem, ExitPc.through]
  | unlockPost =>
    cases h
    have P := E.posted_of hk (.inl rfl)
    exact ⟨⟨hbase, .inr ⟨k, poster P hk rfl rfl (.inl ⟨0, rfl, Nat.zero_le N⟩) rfl⟩⟩, rfl⟩
  | post i =>
    have P := E.posted_of hk (.inr ⟨i, rfl⟩)
    have hle := le_of_post P hk
    have hnum := P.num
    obtain ⟨v, hv⟩ := E.base.sem_some hk (by simp)
    rw [foothreadExit] at h
    split_ifs at h with hi
    · cases h
      refine ⟨⟨hbase, .inr ⟨k, poster P hk rfl rfl (.inl ⟨i + 1, rfl, by omega⟩) ?_⟩⟩, rfl⟩
      simp only [hv, semV, Option.map_some, Option.getD_some, ExitPc.posted, ExitPc.through]
      omega
    · cases h
      refine ⟨⟨hbase, .inr ⟨k, poster P hk rfl rfl (.inr rfl) ?_⟩⟩, rfl⟩
      simp only [ExitPc.posted, ExitPc.through]
      omega
  | done => cases h

/-! ## Callers that block each other -/

omit [DecidableEq κ] in
/-- When `N` callers have come and no caller can go on, all of them are through. -/
theorem blocked (E : ExitOk sh none ex N) (hcard : Fintype.card κ ≤ N + 1)
    (hmany : N ≤ ∑ k, (ex k).elim 0 fun _ => 1) (h : ∀ k e, ex k = some e → foothreadExit sh e = none) :
    ∀ k e, ex k = some e → e = .done := by
  have hcases' : ∀ k e, ex k = some e → e = .wait ∧ sh.exitSem.getD 0 = 0 ∨ e = .done := fun k e => E.base.stuck rfl h
  have hcounted : N ≤ sh.exitedThreads := by
    rw [E.base.exited]
    refine hmany.trans_eq (Finset.sum_congr rfl fun k _ => ?_)
    cases hk : ex k with
    | none => rfl
    | some e => rcases hcases' k e hk with ⟨rfl, -⟩ | rfl <;> rfl
  rcases E.tokens with U | ⟨w, P⟩
  · exfalso
    rcases U.few with hlt | ⟨-, k, hk⟩
    · omega
    · rcases hcases' k _ hk with ⟨he, -⟩ | he <;> cases he
  · -- the caller that posts is done, and `N` others have taken the `N` tokens
    obtain ⟨d, hw, hd, htok⟩ := P.poster
    intro k e hk
    refine (hcases' k e hk).resolve_left ?_
    rintro ⟨rfl, hsem⟩
    obtain rfl : d = .done := by
      refine (hcases' w d hw).resolve_left ?_
      rintro ⟨rfl, -⟩
      rcases hd with hd | ⟨i, hd, -⟩ | hd <;> cases hd
    rw [hsem] at htok
    have hlt : ∑ j, (ex j).elim 0 ExitPc.through < ∑ _j : κ, 1 := by
      refine Finset.sum_lt_sum (fun j _ => ?_) ⟨k, Finset.mem_univ k, by rw [hk]; exact Nat.zero_lt_one⟩
      cases hj : ex j with
      | none => exact Nat.zero_le 1
      | some c => cases c <;> simp [ExitPc.through]
    rw [← Finset.card_eq_sum_ones, Finset.card_univ] at hlt
    simp only [ExitPc.posted] at htok
    omega

end ExitOk

end OsLab.A7
