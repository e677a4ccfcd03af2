import Mathlib.Data.Fintype.BigOperators
import Mathlib.Data.Fintype.Fin
import OsLab.A7.ExitCount

/-!
# The tokens of `foothread_exit` (A7/foothread.c:35-80)

While `main` is still creating threads, `exited_threads` can come up with `num_threads` early and several times, and
the loop that posts follows `num_threads` as it grows. What counts is the caller that makes `exited_threads` equal to the
number `J` of all joinable threads: by then they have all been created (`TokensInv.all_created`), so it posts at least
`J` tokens, and besides it there are `J` callers (`Trips`).

`Ledger` counts the tokens that are posted and taken in a run, and `nobody_left_blocked` compares them when all callers
have come.
-/

namespace OsLab.A7

open Function (update)

/-! ## Any callers -/

variable {κ : Type} [Fintype κ]

/-- The tokens on `exit_sem`, and the callers that need none any more. -/
def settled (sh : Shared) (ex : κ → Option ExitPc) : Nat := sh.exitSem.getD 0 + ∑ k, (ex k).elim 0 ExitPc.through

/-- A caller is posting, or `J` tokens have been posted. -/
def Posts (J : Nat) (sh : Shared) (ex : κ → Option ExitPc) : Prop :=
  (∃ k, ex k = some .unlockPost ∨ ∃ i, ex k = some (.post i)) ∨ J + 1 ≤ settled sh ex

/-- When `J` callers have come, one of them posts, or is about to find the counters equal. -/
structure Trips (J : Nat) (sh : Shared) (ex : κ → Option ExitPc) : Prop where
  loops : ∀ k i, ex k = some (.post i) → i ≤ settled sh ex
  trip : J ≤ sh.exitedThreads → (∃ k, ex k = some .test ∧ sh.exitedThreads = J) ∨ Posts J sh ex

namespace Trips

variable {J : Nat} {sh sh' : Shared} {cre : Option CreatePc} {ex : κ → Option ExitPc} {k : κ} {e e' : ExitPc}

theorem init (hJ : 1 ≤ J) : Trips J ⟨none, none, 0, 0⟩ (fun _ : κ => none) where
  loops _ _ h := by cases h
  trip h := absurd (Nat.le_trans hJ h) (by decide)

/-- A step of `foothread_create`. -/
theorem congr (T : Trips J sh ex) (hsem : sh'.exitSem.getD 0 = sh.exitSem.getD 0)
    (hexited : sh'.exitedThreads = sh.exitedThreads) : Trips J sh' ex := by
  have hsettled : settled sh' ex = settled sh ex := by rw [settled, hsem, settled]
  refine ⟨by rw [hsettled]; exact T.loops, fun hmany => ?_⟩
  rw [Posts, hsettled, hexited]
  exact T.trip (hexited ▸ hmany)

variable [DecidableEq κ]

theorem call (T : Trips J sh ex) (hk : ex k = none) : Trips J sh (update ex k (some .checkMtx)) := by
  have hsettled : settled sh (update ex k (some .checkMtx)) = settled sh ex := by
    rw [settled, ExitBase.sum_call _ hk rfl, settled]
  have hkeep : ∀ {j : κ} {d : ExitPc}, ex j = some d → update ex k (some .checkMtx) j = some d := by
    intro j d hj
    rw [Function.update_of_ne, hj]
    rintro rfl
    rw [hk] at hj
    cases hj
  refine ⟨fun j i hj => ?_, fun hmany => ?_⟩
  · rw [hsettled]
    rcases Tally.update_eq_some.1 hj with ⟨-, h⟩ | ⟨-, h⟩
    · cases h
    · exact T.loops j i h
  · rw [Posts, hsettled]
    rcases T.trip hmany with ⟨j, hj, hJ⟩ | ⟨j, hj⟩ | hJ
    · exact .inl ⟨j, hkeep hj, hJ⟩
    · exact .inr (.inl ⟨j, hj.imp hkeep fun ⟨i, hi⟩ => ⟨i, hkeep hi⟩⟩)
    · exact .inr (.inr hJ)

theorem settled_update (sh sh' : Shared) (hk : ex k = some e) (e' : ExitPc) :
    settled sh' (update ex k (some e')) + e.through + sh.exitSem.getD 0 =
      settled sh ex + e'.through + sh'.exitSem.getD 0 := by
  have hsum := ExitBase.sum_update ExitPc.through hk e'
  unfold settled
  omega

omit [Fintype κ] in
theorem update_keep (hk : ex k = some e) {j : κ} {d : ExitPc} (hj : ex j = some d) (hne : d ≠ e) :
    update ex k (some e') j = some d := by
  rw [Function.update_of_ne, hj]
  rintro rfl
  exact hne (Option.some.inj (hj.symm.trans hk))

/-- The posting is left to others. -/
theorem posts_keep (h : Posts J sh ex) (hk : ex k = some e) (he : e ≠ .unlockPost ∧ ∀ i, e ≠ .post i)
    (hsettled : settled sh ex ≤ settled sh' (update ex k (some e'))) : Posts J sh' (update ex k (some e')) := by
  rcases h with ⟨j, hj⟩ | h
  · exact .inl ⟨j, hj.imp (fun h => update_keep hk h he.1.symm) fun ⟨i, h⟩ => ⟨i, update_keep hk h (he.2 i).symm⟩⟩
  · exact .inr (h.trans hsettled)

theorem loops_keep (T : Trips J sh ex) (hsettled : settled sh ex ≤ settled sh' (update ex k (some e')))
    (hloop : ∀ i, e' = .post i → i ≤ settled sh' (update ex k (some e'))) :
    ∀ j i, update ex k (some e') j = some (.post i) → i ≤ settled sh' (update ex k (some e')) := by
  intro j i hj
  rcases Tally.update_eq_some.1 hj with ⟨-, h⟩ | ⟨-, h⟩
  · exact hloop i h
  · exact (T.loops j i h).trans hsettled

/-- A step that neither counts, compares nor posts. -/
theorem advance (T : Trips J sh ex) (hk : ex k = some e) (he : e ≠ .test ∧ e ≠ .unlockPost ∧ ∀ i, e ≠ .post i)
    (he' : ∀ i, e' ≠ .post i) (hexited : sh'.exitedThreads = sh.exitedThreads)
    (hsettled : settled sh ex ≤ settled sh' (update ex k (some e'))) : Trips J sh' (update ex k (some e')) := by
  refine ⟨T.loops_keep hsettled fun i h => absurd h (he' i), fun hmany => ?_⟩
  rw [hexited] at hmany ⊢
  rcases T.trip hmany with ⟨j, hj, hJ⟩ | h
  · exact .inl ⟨j, update_keep hk hj he.1.symm, hJ⟩
  · exact .inr (posts_keep h hk he.2 hsettled)

/-- The caller that makes the number up is the one that is about to find the counters equal. -/
theorem incr (T : Trips J sh ex) (B : ExitBase sh cre ex) (hk : ex k = some .incr) :
    Trips J { sh with exitedThreads := sh.exitedThreads + 1 } (update ex k (some .test)) := by
  have hupdate := settled_update sh { sh with exitedThreads := sh.exitedThreads + 1 } hk .test
  simp only [ExitPc.through] at hupdate
  refine ⟨T.loops_keep (by omega) (by simp), fun hmany => ?_⟩
  by_cases heq : sh.exitedThreads + 1 = J
  · exact .inl ⟨k, Function.update_self _ _ _, heq⟩
  · dsimp only at hmany
    rcases T.trip (by omega) with ⟨j, hj, -⟩ | h
    · -- two callers in the critical section
      obtain rfl := (B.alone hk rfl).2.2 j _ hj rfl
      rw [hk] at hj
      cases hj
    · exact .inr (posts_keep h hk (by simp) (by omega))

/-- The comparison. -/
theorem test (T : Trips J sh ex) (hnum : J ≤ sh.exitedThreads → sh.numThreads = J) (hk : ex k = some .test) :
    Trips J sh (update ex k (some (if sh.exitedThreads ≠ sh.numThreads then .unlockWait else .unlockPost))) := by
  split_ifs with hne
  · have hupdate := settled_update sh sh hk .unlockWait
    simp only [ExitPc.through] at hupdate
    refine ⟨T.loops_keep (by omega) (by simp), fun hmany => ?_⟩
    rcases T.trip hmany with ⟨j, -, hJ⟩ | h
    · exact absurd (hJ.trans (hnum hmany).symm) hne
    · exact .inr (posts_keep h hk (by simp) (by omega))
  · have hupdate := settled_update sh sh hk .unlockPost
    simp only [ExitPc.through] at hupdate
    exact ⟨T.loops_keep (by omega) (by simp), fun _ => .inr (.inl ⟨k, .inl (Function.update_self _ _ _)⟩)⟩

/-- A caller that posts has a further token posted, or is through when it has posted as many as there are threads. -/
theorem post (T : Trips J sh ex) (B : ExitBase sh cre ex) (hnum : J ≤ sh.exitedThreads → sh.numThreads = J) {i : Nat}
    (hk : ex k = some (.post i)) (h : foothreadExit sh (.post i) = some (sh', e')) : Trips J sh' (update ex k (some e')) := by
  have hi := T.loops k i hk
  have hupdate := settled_update sh sh' hk e'
  obtain ⟨v, hv⟩ := B.sem_some hk (by simp)
  rw [foothreadExit] at h
  split_ifs at h with hlt
  · cases h
    have hsem : (semV sh.exitSem).getD 0 = sh.exitSem.getD 0 + 1 := by simp [hv, semV]
    simp only [ExitPc.through, hsem] at hupdate
    refine ⟨T.loops_keep (by omega) fun i' h => ?_, fun _ => .inr (.inl ⟨k, .inr ⟨i + 1, Function.update_self _ _ _⟩⟩)⟩
    cases h
    omega
  · cases h
    simp only [ExitPc.through] at hupdate
    refine ⟨T.loops_keep (by omega) (by simp), fun hmany => .inr (.inr ?_)⟩
    have hJ := hnum hmany
    omega

/-- A step of a caller of `foothread_exit`; `hnum`: all threads have been created when `J` callers have come. -/
theorem exit (T : Trips J sh ex) (B : ExitBase sh cre ex) (hnum : J ≤ sh.exitedThreads → sh.numThreads = J)
    (hk : ex k = some e) (h : foothreadExit sh e = some (sh', e')) : Trips J sh' (update ex k (some e')) := by
  have hupdate := settled_update sh sh' hk e'
  cases e with
  | checkMtx | unlockWait =>
    cases h
    simp only [ExitPc.through] at hupdate
    exact T.advance hk (by simp) (by simp) rfl (by omega)
  | checkSem =>
    cases h
    have hsem : (if sh.exitSem = none then some 0 else sh.exitSem).getD 0 = sh.exitSem.getD 0 := by
      split_ifs with hs <;> simp [hs]
    simp only [ExitPc.through, hsem] at hupdate
    exact T.advance hk (by simp) (by simp) rfl (by omega)
  | lock =>
    obtain ⟨m, -, he⟩ := Option.map_eq_some_iff.1 h
    cases he
    simp only [ExitPc.through] at hupdate
    exact T.advance hk (by simp) (by simp) rfl (by omega)
  | incr =>
    cases h
    exact T.incr B hk
  | test =>
    cases h
    exact T.test hnum hk
  | wait =>
    obtain ⟨v, hv, he⟩ := Option.map_eq_some_iff.1 h
    cases he
    obtain ⟨w, hsem, rfl⟩ := semP_some hv
    simp only [ExitPc.through, hsem, Option.getD_some] at hupdate
    exact T.advance hk (by simp) (by simp) rfl (by omega)
  | unlockPost =>
    cases h
    simp only [ExitPc.through] at hupdate
    refine ⟨T.loops_keep (by omega) fun i h => ?_, fun _ => .inr (.inl ⟨k, .inr ⟨0, Function.update_self _ _ _⟩⟩)⟩
    cases h
    exact Nat.zero_le _
  | post i => exact T.post B hnum hk h
  | done => cases h

end Trips

/-! ## The program -/

def ThreadPc.exitPc : ThreadPc → Option ExitPc
  | .unborn | .running => none
  | .exit p => some p

def MainPc.exitPc : MainPc → Option ExitPc
  | .create _ _ => none
  | .exit p => some p

def MainPc.createPc : MainPc → Option CreatePc
  | .create _ p => some p
  | .exit _ => none

/-- Behind `num_threads++`. -/
def CreatePc.counted : CreatePc → Nat
  | .checkMtx | .checkSem | .lock | .count => 0
  | .clone | .unlock => 1

/-- Behind `clone`. -/
def CreatePc.cloned : CreatePc → Nat
  | .checkMtx | .checkSem | .lock | .count | .clone => 0
  | .unlock => 1

/-- Behind `exited_threads++`, and neither about to post nor posting. -/
def ExitPc.past : ExitPc → Bool
  | .test | .unlockWait | .wait | .done => true
  | .checkMtx | .checkSem | .lock | .incr | .unlockPost | .post _ => false

namespace ExitSys

variable {J : Nat} {s s' : ExitSys}

/-- The calls of `foothread_exit`; `none` is `main`'s. -/
def exits (J : Nat) (s : ExitSys) : Option (Fin J) → Option ExitPc
  | none => s.main.exitPc
  | some t => (s.thr t).exitPc

/-- `main` has created so many threads. -/
def Created (J : Nat) (s : ExitSys) : Prop :=
  match s.main with
  | .create k p => k < J ∧ s.sh.numThreads = k + p.counted ∧ ∀ t, s.thr t ≠ .unborn ↔ t < k + p.cloned
  | .exit _ => s.sh.numThreads = J ∧ ∀ t, s.thr t ≠ .unborn ↔ t < J

structure TokensInv (J : Nat) (s : ExitSys) : Prop where
  base : ExitBase s.sh s.main.createPc (s.exits J)
  trips : Trips J s.sh (s.exits J)
  created : s.Created J

namespace TokensInv

theorem lt_of_born (I : TokensInv J s) {t : Nat} (ht : s.thr t ≠ .unborn) : t < J := by
  have hcreated := I.created
  unfold Created at hcreated
  split at hcreated
  · next k p hmain =>
    have hlt := (hcreated.2.2 t).1 ht
    cases p <;> simp only [CreatePc.cloned] at hlt <;> omega
  · exact (hcreated.2 t).1 ht

/-- A thread has been counted when it calls `foothread_exit`, and `main` has created all of them when it does. -/
theorem all_created (I : TokensInv J s) (hmany : J ≤ s.sh.exitedThreads) : s.sh.numThreads = J := by
  have hcreated := I.created
  unfold Created at hcreated
  split at hcreated
  · next k p hmain =>
    obtain ⟨hk, hnum, hborn⟩ := hcreated
    have hterm : ∀ t : Fin J, (s.exits J (some t)).elim 0 ExitPc.counted ≤ if t.val < k + p.cloned then 1 else 0 := by
      intro t
      by_cases ht : s.thr t = .unborn
      · simp [exits, ht, ThreadPc.exitPc]
      · rw [if_pos ((hborn t).1 ht)]
        cases s.exits J (some t) with
        | none => exact Nat.zero_le 1
        | some e => cases e <;> simp [ExitPc.counted]
    have hthreads : s.sh.exitedThreads ≤ k + p.cloned := by
      rw [I.base.exited, Fintype.sum_option]
      have hmain' : s.exits J none = none := by simp [exits, hmain, MainPc.exitPc]
      rw [hmain', Option.elim_none, Nat.zero_add]
      calc ∑ t : Fin J, (s.exits J (some t)).elim 0 ExitPc.counted
          ≤ ∑ t : Fin J, if t.val < k + p.cloned then 1 else 0 := Finset.sum_le_sum fun t _ => hterm t
        _ = min J (k + p.cloned) := by rw [← Finset.card_filter, Fin.card_filter_val_lt]
        _ ≤ k + p.cloned := min_le_right _ _
    have hle : p.cloned ≤ p.counted ∧ p.counted ≤ 1 := by cases p <;> decide
    omega
  · exact hcreated.1

theorem init (hJ : 1 ≤ J) : TokensInv J (ExitSys.init (List.replicate J .joinable)) := by
  have hmain : (ExitSys.init (List.replicate J .joinable)).main = .create 0 .checkMtx := by
    simp [ExitSys.init, mainAt, Nat.pos_iff_ne_zero.1 hJ]
  have hexits : (ExitSys.init (List.replicate J .joinable)).exits J = fun _ => none := by
    funext k
    cases k with
    | none => simp [exits, hmain, MainPc.exitPc]
    | some t => rfl
  refine ⟨?_, ?_, ?_⟩
  · rw [hmain, hexits]
    exact ExitBase.init
  · rw [hexits]
    exact Trips.init hJ
  · rw [Created, hmain]
    exact ⟨hJ, rfl, fun t => ⟨fun ht => absurd rfl ht, fun ht => absurd ht (Nat.not_lt_zero t)⟩⟩

theorem exits_thread {t : Fin J} {p : ThreadPc} {e : ExitPc} (hp : p.exitPc = some e) {s' : ExitSys}
    (hmain : s'.main = s.main) (hthr : s'.thr = update s.thr t p) : s'.exits J = update (s.exits J) (some t) (some e) := by
  funext k
  cases k with
  | none =>
    rw [Function.update_of_ne (by simp)]
    simp [exits, hmain]
  | some u =>
    by_cases hu : u = t
    · rw [hu, Function.update_self]
      simp [exits, hthr, hp]
    · rw [Function.update_of_ne (by simpa using hu)]
      simp only [exits, hthr]
      rw [Function.update_of_ne fun h => hu (Fin.ext h)]

theorem exits_main {e : ExitPc} {s' : ExitSys} (hmain : s'.main = .exit e) (hthr : s'.thr = s.thr) :
    s'.exits J = update (s.exits J) none (some e) := by
  funext k
  cases k with
  | none => simp [exits, hmain, MainPc.exitPc]
  | some u =>
    rw [Function.update_of_ne (by simp)]
    simp [exits, hthr]

theorem foothreadExit_num {sh sh' : Shared} {e e' : ExitPc} (h : foothreadExit sh e = some (sh', e')) :
    sh'.numThreads = sh.numThreads := by
  cases e with
  | lock | wait =>
    obtain ⟨m, -, he⟩ := Option.map_eq_some_iff.1 h
    cases he
    rfl
  | post i =>
    rw [foothreadExit] at h
    split_ifs at h <;> cases h <;> rfl
  | checkMtx | checkSem | incr | test | unlockWait | unlockPost =>
    cases h
    rfl
  | done => cases h

/-! ## Steps -/

variable {k t : Nat} {e e' : ExitPc} {sh' : Shared}

theorem foothreadCreate_created {sh : Shared} {p : CreatePc} {p' : Option CreatePc}
    (h : foothreadCreate .joinable sh p = some (sh', p')) :
    sh'.numThreads + p.counted = sh.numThreads + p'.elim 1 CreatePc.counted ∧
      (p ≠ .clone → p.cloned = p'.elim 1 CreatePc.cloned) ∧ (p = .clone → p' = some .unlock) := by
  cases p with
  | lock =>
    obtain ⟨m, -, he⟩ := Option.map_eq_some_iff.1 h
    cases he
    exact ⟨rfl, fun _ => rfl, fun hp => by cases hp⟩
  | clone =>
    cases h
    exact ⟨rfl, fun hp => absurd rfl hp, fun _ => rfl⟩
  | checkMtx | checkSem | count | unlock =>
    cases h
    exact ⟨rfl, fun _ => rfl, fun hp => by cases hp⟩

/-- The threads that exist when a statement of `foothread_create` has been executed. -/
theorem born_create {p : CreatePc} {p' : Option CreatePc} (hborn : ∀ t, s.thr t ≠ .unborn ↔ t < k + p.cloned)
    (h : foothreadCreate .joinable s.sh p = some (sh', p')) (t : Nat) :
    (if p = .clone then update s.thr k .running else s.thr) t ≠ .unborn ↔ t < k + p'.elim 1 CreatePc.cloned := by
  obtain ⟨-, hclone, hunlock⟩ := foothreadCreate_created h
  split_ifs with hp
  · rw [hunlock hp]
    by_cases htk : t = k
    · rw [htk, Function.update_self]
      exact iff_of_true (by simp) (Nat.lt_succ_self k)
    · rw [Function.update_of_ne htk, hborn t, hp]
      simp only [Option.elim_some, CreatePc.cloned]
      omega
  · rw [hborn t, hclone hp]

/-- The thread that `clone` starts has not called `foothread_exit`. -/
theorem exitPc_create {p : CreatePc} (hborn : ∀ t, s.thr t ≠ .unborn ↔ t < k + p.cloned) (t : Nat) :
    ((if p = .clone then update s.thr k .running else s.thr) t).exitPc = (s.thr t).exitPc := by
  split_ifs with hp
  · by_cases htk : t = k
    · have hunborn : s.thr k = .unborn := by
        by_contra hne
        have hlt := (hborn k).1 hne
        rw [hp] at hlt
        exact Nat.lt_irrefl k hlt
      rw [htk, Function.update_self, hunborn]
      rfl
    · rw [Function.update_of_ne htk]
  · rfl

/-- A statement of `foothread_create`. -/
theorem create {p : CreatePc} {p' : Option CreatePc} (I : TokensInv J s) (hmain : s.main = .create k p)
    (h : foothreadCreate .joinable s.sh p = some (sh', p')) :
    TokensInv J ⟨sh', p'.elim (mainAt (List.replicate J .joinable) (k + 1)) (.create k),
      if p = .clone then update s.thr k .running else s.thr⟩ := by
  obtain ⟨hsem, hexited, -⟩ := foothreadCreate_keeps h
  obtain ⟨hcount, -⟩ := foothreadCreate_created h
  have hcreated := I.created
  simp only [Created, hmain] at hcreated
  obtain ⟨hk, hnum, hborn⟩ := hcreated
  have hnum' : sh'.numThreads = k + p'.elim 1 CreatePc.counted := by omega
  have hnone : s.exits J none = none := by simp [exits, hmain, MainPc.exitPc]
  have hexits : ∀ j q, exits J ⟨sh', .create j q, if p = .clone then update s.thr k .running else s.thr⟩ = s.exits J := by
    intro j q
    funext c
    cases c with
    | none => exact hnone.symm
    | some t => exact exitPc_create hborn t
  have B : ExitBase sh' p' (s.exits J) := by
    have hbase := I.base
    rw [hmain] at hbase
    exact hbase.create h
  have T : Trips J sh' (s.exits J) := I.trips.congr hsem hexited
  cases p' with
  | some q =>
    rw [Option.elim_some]
    exact ⟨by rw [hexits]; exact B, by rw [hexits]; exact T, hk, hnum', born_create hborn h⟩
  | none =>
    rcases Nat.lt_or_ge (k + 1) J with hlt | hge
    · have hmain' : mainAt (List.replicate J .joinable) (k + 1) = .create (k + 1) .checkMtx :=
        if_pos (by rwa [List.length_replicate])
      rw [Option.elim_none, hmain']
      exact ⟨by rw [hexits]; exact B.nextCreate, by rw [hexits]; exact T, hlt, hnum', born_create hborn h⟩
    · -- the last create has returned, and `main` calls `foothread_exit`
      have hJ : k + 1 = J := by omega
      have hmain' : mainAt (List.replicate J .joinable) (k + 1) = .exit .checkMtx :=
        if_neg (by rw [List.length_replicate]; omega)
      have hcall : exits J ⟨sh', .exit .checkMtx, if p = .clone then update s.thr k .running else s.thr⟩ =
          update (s.exits J) none (some .checkMtx) := by
        funext c
        cases c with
        | none => rw [Function.update_self]; rfl
        | some t => rw [Function.update_of_ne (by simp)]; exact exitPc_create hborn t
      rw [Option.elim_none, hmain']
      exact ⟨by rw [hcall]; exact B.call hnone, by rw [hcall]; exact T.call hnone, hnum'.trans hJ,
        fun t => (born_create hborn h t).trans (by rw [← hJ]; rfl)⟩

theorem exit_main (I : TokensInv J s) (hmain : s.main = .exit e) (h : foothreadExit s.sh e = some (sh', e')) :
    TokensInv J { s with sh := sh', main := .exit e' } := by
  have hk : s.exits J none = some e := by simp [exits, hmain, MainPc.exitPc]
  have hexits : exits J { s with sh := sh', main := .exit e' } = update (s.exits J) none (some e') :=
    exits_main rfl rfl
  have hcreated := I.created
  simp only [Created, hmain] at hcreated
  have hbase := I.base
  refine ⟨?_, ?_, (foothreadExit_num h).trans hcreated.1, hcreated.2⟩
  · rw [hexits]
    rw [hmain] at hbase
    exact hbase.exit hk h
  · rw [hexits]
    exact I.trips.exit hbase I.all_created hk h

/-- What a thread that has been created does to `Created`. -/
theorem created_thread (I : TokensInv J s) (ht : s.thr t ≠ .unborn) {q : ThreadPc} (hq : q ≠ .unborn)
    (hnum : sh'.numThreads = s.sh.numThreads) :
    Created J { s with sh := sh', thr := update s.thr t q } := by
  have hborn : ∀ u, update s.thr t q u ≠ .unborn ↔ s.thr u ≠ .unborn := by
    intro u
    by_cases hut : u = t
    · rw [hut, Function.update_self]
      exact iff_of_true hq ht
    · rw [Function.update_of_ne hut]
  have hcreated := I.created
  unfold Created at hcreated ⊢
  cases hmain : s.main with
  | create k p =>
    rw [hmain] at hcreated
    exact ⟨hcreated.1, hnum.trans hcreated.2.1, fun u => (hborn u).trans (hcreated.2.2 u)⟩
  | exit e =>
    rw [hmain] at hcreated
    exact ⟨hnum.trans hcreated.1, fun u => (hborn u).trans (hcreated.2 u)⟩

theorem exit_thread (I : TokensInv J s) (ht : s.thr t = .exit e) (h : foothreadExit s.sh e = some (sh', e')) :
    TokensInv J { s with sh := sh', thr := update s.thr t (.exit e') } := by
  have hborn : s.thr t ≠ .unborn := by rw [ht]; simp
  have hk : s.exits J (some ⟨t, I.lt_of_born hborn⟩) = some e := by simp [exits, ht, ThreadPc.exitPc]
  have hexits : exits J { s with sh := sh', thr := update s.thr t (.exit e') } =
      update (s.exits J) (some ⟨t, I.lt_of_born hborn⟩) (some e') := exits_thread rfl rfl rfl
  refine ⟨?_, ?_, I.created_thread hborn (by simp) (foothreadExit_num h)⟩
  · rw [hexits]
    exact I.base.exit hk h
  · rw [hexits]
    exact I.trips.exit I.base I.all_created hk h

theorem call_thread (I : TokensInv J s) (ht : s.thr t = .running) :
    TokensInv J { s with thr := update s.thr t (.exit .checkMtx) } := by
  have hborn : s.thr t ≠ .unborn := by rw [ht]; simp
  have hk : s.exits J (some ⟨t, I.lt_of_born hborn⟩) = none := by simp [exits, ht, ThreadPc.exitPc]
  have hexits : exits J { s with thr := update s.thr t (.exit .checkMtx) } =
      update (s.exits J) (some ⟨t, I.lt_of_born hborn⟩) (some .checkMtx) := exits_thread rfl rfl rfl
  refine ⟨?_, ?_, I.created_thread hborn (by simp) rfl⟩
  · rw [hexits]
    exact I.base.call hk
  · rw [hexits]
    exact I.trips.call hk

end TokensInv

/-! ## A run -/

theorem TokensInv.step {a : Actor} (I : TokensInv J s) (h : step (List.replicate J .joinable) s a = some s') :
    TokensInv J s' := by
  cases a with
  | main =>
    rcases step_main h with ⟨k, p, ty, sh', p', hmain, hty, hp, rfl⟩ | ⟨e, sh', e', hmain, he, rfl⟩
    · obtain rfl : ty = .joinable := List.eq_of_mem_replicate (List.mem_of_getElem? hty)
      exact I.create hmain hp
    · exact I.exit_main hmain he
  | thread t =>
    rcases step_thread h with ⟨ht, rfl⟩ | ⟨e, sh', e', ht, he, rfl⟩
    · exact I.call_thread ht
    · exact I.exit_thread ht he

/-- All callers have counted themselves, and nobody is going to post or posting. -/
def Past (J : Nat) (s : ExitSys) : Prop := ∀ k, (s.exits J k).any ExitPc.past = true

instance : DecidablePred (Past J) := fun _ => Fintype.decidableForallFintype

namespace Past

variable {e e' : ExitPc} {k : Option (Fin J)}

theorem exists_pc (P : s.Past J) (k : Option (Fin J)) : ∃ e, s.exits J k = some e ∧ e.past = true := by
  have hk := P k
  cases he : s.exits J k with
  | none => simp [he] at hk
  | some e => exact ⟨e, rfl, by simpa [he] using hk⟩

theorem exited (P : s.Past J) (I : TokensInv J s) : s.sh.exitedThreads = J + 1 := by
  rw [I.base.exited]
  calc ∑ k, (s.exits J k).elim 0 ExitPc.counted = ∑ _k : Option (Fin J), 1 := by
        refine Finset.sum_congr rfl fun k _ => ?_
        obtain ⟨e, he, hpast⟩ := P.exists_pc k
        rw [he]
        cases e <;> first | rfl | cases hpast
    _ = J + 1 := by simp

theorem settled (P : s.Past J) (I : TokensInv J s) : J + 1 ≤ settled s.sh (s.exits J) := by
  have hexited := P.exited I
  rcases I.trips.trip (by omega) with ⟨-, -, h⟩ | ⟨k, hk⟩ | h
  · omega
  · obtain ⟨e, he, hpast⟩ := P.exists_pc k
    rcases hk with hk | ⟨i, hk⟩
    · rw [hk] at he; cases he; cases hpast
    · rw [hk] at he; cases he; cases hpast
  · exact h

/-- The callers that are not through, and the tokens for them. -/
theorem card_le (P : s.Past J) (I : TokensInv J s) :
    (Finset.univ.filter fun k => s.exits J k ≠ some .done).card ≤ s.sh.exitSem.getD 0 := by
  have hsettled := P.settled I
  have hthrough : ∑ k, (s.exits J k).elim 0 ExitPc.through = (Finset.univ.filter fun k => s.exits J k = some .done).card := by
    rw [Finset.card_filter]
    refine Finset.sum_congr rfl fun k _ => ?_
    cases s.exits J k with
    | none => rfl
    | some e => cases e <;> rfl
  have hcard := Finset.card_filter_add_card_filter_not (s := Finset.univ) fun k => s.exits J k = some .done
  simp only [Finset.card_univ, Fintype.card_option, Fintype.card_fin, ← ne_eq] at hcard
  unfold A7.settled at hsettled
  omega

theorem not_stuck (P : s.Past J) (I : TokensInv J s) (hk : s.exits J k = some e) (he : e ≠ .done) :
    foothreadExit s.sh e ≠ none := by
  obtain ⟨d, hd, hpast⟩ := P.exists_pc k
  obtain rfl : e = d := Option.some.inj (hk.symm.trans hd)
  cases e with
  | test | unlockWait => simp [foothreadExit]
  | wait =>
    have hpos : 0 < s.sh.exitSem.getD 0 := by
      refine lt_of_lt_of_le (Finset.card_pos.2 ⟨k, ?_⟩) (P.card_le I)
      simp [hk]
    rw [foothreadExit, Ne, Option.map_eq_none_iff, semP_eq_none]
    omega
  | done => exact absurd rfl he
  | checkMtx | checkSem | lock | incr | unlockPost | post => cases hpast

theorem exit_past {sh sh' : Shared} (hne : sh.exitedThreads ≠ sh.numThreads) (he : e.past = true)
    (h : foothreadExit sh e = some (sh', e')) : e'.past = true := by
  cases e with
  | test =>
    cases h
    rw [if_pos hne]
    rfl
  | wait =>
    obtain ⟨v, -, h⟩ := Option.map_eq_some_iff.1 h
    cases h
    rfl
  | unlockWait =>
    cases h
    rfl
  | done => cases h
  | checkMtx | checkSem | lock | incr | unlockPost | post => cases he

theorem update (P : s.Past J) (hexits : s'.exits J = Function.update (s.exits J) k (some e')) (he' : e'.past = true) :
    s'.Past J := by
  intro j
  rw [hexits]
  by_cases hj : j = k
  · rw [hj, Function.update_self]
    exact he'
  · rw [Function.update_of_ne hj]
    exact P j

theorem step {a : Actor} (P : s.Past J) (I : TokensInv J s)
    (h : ExitSys.step (List.replicate J .joinable) s a = some s') : s'.Past J := by
  have hexited := P.exited I
  have hnum := I.all_created (by omega)
  have hne : s.sh.exitedThreads ≠ s.sh.numThreads := by omega
  have hpast : ∀ k e, s.exits J k = some e → e.past = true := by
    intro k e he
    obtain ⟨d, hd, hpast⟩ := P.exists_pc k
    rwa [Option.some.inj (he.symm.trans hd)]
  cases a with
  | main =>
    rcases step_main h with ⟨k, p, -, -, -, hmain, -⟩ | ⟨e, sh', e', hmain, he, rfl⟩
    · obtain ⟨e, he, -⟩ := P.exists_pc none
      simp [exits, hmain, MainPc.exitPc] at he
    · have hk : s.exits J none = some e := by simp [exits, hmain, MainPc.exitPc]
      exact P.update (TokensInv.exits_main rfl rfl) (exit_past hne (hpast none e hk) he)
  | thread t =>
    rcases step_thread h with ⟨ht, -⟩ | ⟨e, sh', e', ht, he, rfl⟩
    · have hlt := I.lt_of_born (t := t) (by rw [ht]; simp)
      obtain ⟨e, he, -⟩ := P.exists_pc (some ⟨t, hlt⟩)
      simp [exits, ht, ThreadPc.exitPc] at he
    · have hlt := I.lt_of_born (t := t) (by rw [ht]; simp)
      have hk : s.exits J (some ⟨t, hlt⟩) = some e := by simp [exits, ht, ThreadPc.exitPc]
      exact P.update (TokensInv.exits_thread (t := ⟨t, hlt⟩) rfl rfl rfl) (exit_past hne (hpast _ e hk) he)

end Past

theorem exit_stuck (h : ∀ a, ExitSys.step (List.replicate J .joinable) s a = none)
    {k : Option (Fin J)} {e : ExitPc} (hk : s.exits J k = some e) : foothreadExit s.sh e = none := by
  cases k with
  | none =>
    cases hmain : s.main with
    | create => simp [exits, hmain, MainPc.exitPc] at hk
    | exit d =>
      obtain rfl : d = e := by simpa [exits, hmain, MainPc.exitPc] using hk
      simpa [ExitSys.step, stepMain, hmain] using h .main
  | some t =>
    cases ht : s.thr t with
    | unborn | running => simp [exits, ht, ThreadPc.exitPc] at hk
    | exit d =>
      obtain rfl : d = e := by simpa [exits, ht, ThreadPc.exitPc] using hk
      simpa [ExitSys.step, stepThread, ht] using h (.thread t)

/-- In a state without a step all have come, and nobody is posting. -/
theorem TokensInv.past_of_stuck (I : TokensInv J s) (h : ∀ a, ExitSys.step (List.replicate J .joinable) s a = none) :
    s.Past J := by
  have hexit : ∀ k e, s.exits J k = some e → foothreadExit s.sh e = none := fun k e => exit_stuck h
  have hpast : ∀ k e, s.main.createPc.elim 0 CreatePc.inside = 0 → s.exits J k = some e → e.past = true := by
    intro k e hcre hk
    rcases I.base.stuck hcre hexit hk with ⟨rfl, -⟩ | rfl <;> rfl
  have hcreated := I.created
  cases hmain : s.main with
  | create k p =>
    simp only [Created, hmain] at hcreated
    have hnone : foothreadCreate .joinable s.sh p = none := by
      simpa [ExitSys.step, stepMain, hmain, hcreated.1] using h .main
    cases p with
    | lock =>
      have hbase := I.base
      rw [hmain] at hbase
      have hfree := hbase.mtx_free rfl hexit
      rcases hmtx : s.sh.mtx with _ | _ | v
      · exact absurd ((hbase.mtx_made hmtx).1 _ rfl) (by simp)
      · rw [hmtx] at hfree; cases hfree
      · simp [foothreadCreate, hmtx, semP] at hnone
    | checkMtx | checkSem | count | clone | unlock => cases hnone
  | exit e =>
    simp only [Created, hmain] at hcreated
    have hcre : s.main.createPc.elim 0 CreatePc.inside = 0 := by rw [hmain]; rfl
    intro k
    cases k with
    | none =>
      have hk : s.exits J none = some e := by simp [exits, hmain, MainPc.exitPc]
      rw [hk]
      exact hpast none e hcre hk
    | some t =>
      cases ht : s.thr t with
      | unborn => exact absurd ht ((hcreated.2 t).2 t.isLt)
      | running =>
        have hnone := h (.thread t)
        simp [ExitSys.step, stepThread, ht] at hnone
      | exit d =>
        have hk : s.exits J (some t) = some d := by simp [exits, ht, ThreadPc.exitPc]
        rw [hk]
        exact hpast (some t) d hcre hk

end ExitSys

/-- A run with what has been posted on `exit_sem` and taken from it. -/
structure Ledger where
  sys : ExitSys
  posted : Nat
  taken : Nat

/-- `V(exit_sem)` is about to be executed. -/
def ExitPc.posts (sh : Shared) : ExitPc → Nat
  | .post i => if i < sh.numThreads then 1 else 0
  | .checkMtx | .checkSem | .lock | .incr | .test | .unlockWait | .wait | .unlockPost | .done => 0

/-- `P(exit_sem)` is about to be executed. -/
def ExitPc.takes : ExitPc → Nat
  | .wait => 1
  | .checkMtx | .checkSem | .lock | .incr | .test | .unlockWait | .unlockPost | .post _ | .done => 0

theorem foothreadExit_tokens {sh sh' : Shared} {e e' : ExitPc}
    (hsem : e ≠ .checkMtx ∧ e ≠ .checkSem → ∃ v, sh.exitSem = some v) (h : foothreadExit sh e = some (sh', e')) :
    sh'.exitSem.getD 0 + e.takes = sh.exitSem.getD 0 + e.posts sh := by
  cases e with
  | checkSem =>
    cases h
    dsimp only
    split_ifs with hs <;> simp [hs, ExitPc.takes, ExitPc.posts]
  | lock =>
    obtain ⟨m, -, he⟩ := Option.map_eq_some_iff.1 h
    cases he
    rfl
  | wait =>
    obtain ⟨v, hv, he⟩ := Option.map_eq_some_iff.1 h
    cases he
    obtain ⟨w, hs, rfl⟩ := semP_some hv
    rw [hs]
    rfl
  | post i =>
    obtain ⟨v, hv⟩ := hsem (by simp)
    rw [foothreadExit] at h
    rw [ExitPc.posts]
    split_ifs at h ⊢ with hi
    · cases h
      simp [hv, semV, ExitPc.takes]
    · cases h
      rfl
  | checkMtx | incr | test | unlockWait | unlockPost =>
    cases h
    rfl
  | done => cases h

namespace Ledger

/-- Where the actor is in `foothread_exit`. -/
def pc (s : ExitSys) : Actor → Option ExitPc
  | .main => s.main.exitPc
  | .thread t => (s.thr t).exitPc

def init (prog : List JoinType) : Ledger := ⟨ExitSys.init prog, 0, 0⟩

def step (prog : List JoinType) (L : Ledger) (a : Actor) : Option Ledger :=
  (L.sys.step prog a).map fun s =>
    ⟨s, L.posted + (pc L.sys a).elim 0 (ExitPc.posts L.sys.sh), L.taken + (pc L.sys a).elim 0 ExitPc.takes⟩

variable {J : Nat} {L L' : Ledger}

/-- What is not on the semaphore has been taken. -/
def Balanced (L : Ledger) : Prop := L.posted = L.sys.sh.exitSem.getD 0 + L.taken

theorem balanced_step {prog : List JoinType} {a : Actor} (hL : L.Balanced)
    (hsem : ∀ e, pc L.sys a = some e → e ≠ .checkMtx ∧ e ≠ .checkSem → ∃ v, L.sys.sh.exitSem = some v)
    (h : step prog L a = some L') : L'.Balanced := by
  obtain ⟨s', hs, rfl⟩ := Option.map_eq_some_iff.1 h
  have hexit : ∀ sh' e e', pc L.sys a = some e → foothreadExit L.sys.sh e = some (sh', e') → s'.sh = sh' →
      L.posted + (pc L.sys a).elim 0 (ExitPc.posts L.sys.sh) =
        s'.sh.exitSem.getD 0 + (L.taken + (pc L.sys a).elim 0 ExitPc.takes) := by
    intro sh' e e' hpc he hsh
    have hkeep := foothreadExit_tokens (hsem e hpc) he
    rw [hpc, Option.elim_some, Option.elim_some, hsh]
    unfold Balanced at hL
    omega
  cases a with
  | main =>
    rcases ExitSys.step_main hs with ⟨k, p, ty, sh', p', hmain, -, hp, rfl⟩ | ⟨e, sh', e', hmain, he, rfl⟩
    · have hpc : pc L.sys .main = none := by rw [pc, hmain]; rfl
      have hkeep := (foothreadCreate_keeps hp).1
      unfold Balanced at hL ⊢
      rw [hpc]
      simpa [hkeep] using hL
    · exact hexit sh' e e' (by rw [pc, hmain]; rfl) he rfl
  | thread t =>
    rcases ExitSys.step_thread hs with ⟨ht, rfl⟩ | ⟨e, sh', e', ht, he, rfl⟩
    · have hpc : pc L.sys (.thread t) = none := by rw [pc, ht]; rfl
      unfold Balanced at hL ⊢
      rw [hpc]
      exact hL
    · exact hexit sh' e e' (by rw [pc, ht]; rfl) he rfl

/-- What holds of the runs of a program with `J` joinable threads. -/
structure Ok (J : Nat) (L : Ledger) : Prop where
  tokens : L.sys.TokensInv J
  balanced : L.Balanced

namespace Ok

theorem step {a : Actor} (I : L.Ok J) (h : Ledger.step (List.replicate J .joinable) L a = some L') : L'.Ok J := by
  refine ⟨?_, balanced_step I.balanced (fun e he hne => ?_) h⟩
  · obtain ⟨s', hs, rfl⟩ := Option.map_eq_some_iff.1 h
    exact I.tokens.step hs
  · cases a with
    | main => exact I.tokens.base.sem_some (k := none) he hne
    | thread t =>
      have hborn : L.sys.thr t ≠ .unborn := by
        intro ht
        simp [pc, ht, ThreadPc.exitPc] at he
      have hk : L.sys.exits J (some ⟨t, I.tokens.lt_of_born hborn⟩) = some e := he
      exact I.tokens.base.sem_some hk hne

theorem reach (hJ : 1 ≤ J) (hL : Trans.Reach (Ledger.step (List.replicate J .joinable)) (.init (List.replicate J .joinable)) L) :
    L.Ok J := by
  apply hL.inv
  · exact ⟨ExitSys.TokensInv.init hJ, rfl⟩
  · intro L a L' _ I _ h
    exact I.step h

theorem past {M : Ledger} (I : L.Ok J) (P : L.sys.Past J) (hM : Trans.Reach (Ledger.step (List.replicate J .joinable)) L M) :
    M.Ok J ∧ M.sys.Past J := by
  refine hM.inv (I := fun M => M.Ok J ∧ M.sys.Past J) ⟨I, P⟩ fun M a M' _ ⟨I, P⟩ _ h => ⟨I.step h, ?_⟩
  obtain ⟨s', hs, rfl⟩ := Option.map_eq_some_iff.1 h
  exact P.step I.tokens hs

end Ok

end Ledger

/-- **Nobody is left blocked in `foothread_exit`**, whatever the order of the creates and exits: when all `J + 1` callers
have counted themselves and nobody posts any more, there have been tokens for those that have taken one and for those
that are not through, and from then on none of these is blocked. When no move is left, all are through. -/
theorem nobody_left_blocked {J : Nat} (hJ : 1 ≤ J) {L : Ledger}
    (hL : Trans.Reach (Ledger.step (List.replicate J .joinable)) (.init (List.replicate J .joinable)) L) :
    (L.sys.Past J →
      L.taken + (Finset.univ.filter fun k => L.sys.exits J k ≠ some .done).card ≤ L.posted ∧
      ∀ L', Trans.Reach (Ledger.step (List.replicate J .joinable)) L L' →
        ∀ k e, L'.sys.exits J k = some e → e ≠ .done → foothreadExit L'.sys.sh e ≠ none) ∧
    ((∀ a, L.step (List.replicate J .joinable) a = none) → ∀ k, L.sys.exits J k = some .done) := by
  have I := Ledger.Ok.reach hJ hL
  refine ⟨fun P => ⟨?_, fun L' hL' k e hk he => ?_⟩, fun h k => ?_⟩
  · have hcard := P.card_le I.tokens
    have hbalanced := I.balanced
    unfold Ledger.Balanced at hbalanced
    omega
  · obtain ⟨I', P'⟩ := I.past P hL'
    exact P'.not_stuck I'.tokens hk he
  · have hstuck : ∀ a, ExitSys.step (List.replicate J .joinable) L.sys a = none := fun a => Option.map_eq_none_iff.1 (h a)
    obtain ⟨e, hk, -⟩ := (I.tokens.past_of_stuck hstuck).exists_pc k
    have hexit := ExitSys.exit_stuck hstuck hk
    by_contra hne
    exact (I.tokens.past_of_stuck hstuck).not_stuck I.tokens hk (fun he => hne (by rw [hk, he])) hexit

/-- One thread, which is the one to post, and `main`, which has still to wait. -/
theorem nobody_left_blocked_one :
    ∃ L, Trans.Reach (Ledger.step [.joinable]) (.init [.joinable]) L ∧
      (L.sys.Past 1 ∧ L.sys.main = .exit .wait) ∧
      L.taken + (Finset.univ.filter fun k => L.sys.exits 1 k ≠ some .done).card ≤ L.posted := by
  obtain ⟨L, hL, hp⟩ := Trans.exists_reach_of_run (Ledger.step [.joinable]) (.init [.joinable])
    (List.replicate 6 .main ++ List.replicate 9 (.thread 0) ++ List.replicate 6 .main)
    (fun L => decide (L.sys.Past 1 ∧ L.sys.main = .exit .wait)) (by decide)
  have hpast := of_decide_eq_true hp
  exact ⟨L, hL, hpast, ((nobody_left_blocked (J := 1) le_rfl hL).1 hpast.1).1⟩

end OsLab.A7
