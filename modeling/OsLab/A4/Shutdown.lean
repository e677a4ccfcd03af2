import Mathlib.Algebra.Group.Action.Defs
import Mathlib.Algebra.Order.BigOperators.Group.Finset
import Mathlib.Data.Fintype.Fin
import OsLab.A4.Prodcons
import OsLab.Lib.Fair
import OsLab.Lib.Tally

/-!
# Everybody comes to the end (A4/prodcons_21CS30009.c)

The processes wait for each other by reading `M[0]` again and again, so a run need not end, and no step is ever blocked. It
does end when every process gets its turn again and again: the process `M[0]` is up to `Helps`, and what it does next brings
the end nearer (`eases_step`), however often the others have looked at `M[0]` in between.
-/

namespace OsLab.A4

variable {n : Nat}

/-- At one of the loops without a body (:80, :91). -/
def ProdPc.waits : ProdPc n → Bool
  | .spin _ | .drain => true
  | _ => false

/-- The steps of the producer that are still to come, where addressing a consumer stands for the steps of that consumer
too, and the last one for those of all consumers. -/
def ProdPc.stepsLeft : ProdPc n → Nat
  | .spin _ => 2 * n + 10
  | .address _ => 2 * n + 9
  | .payload _ => 2 * n + 4
  | .tally _ => 2 * n + 3
  | .drain => 2 * n + 2
  | .stop => 2 * n + 1
  | .done => 0

/-- The steps of a consumer until `M[0]` is 0 again, while its number is in `M[0]`. -/
def ConsPc.untilClear : ConsPc → Nat
  | .test => 4
  | .cmp => 3
  | .add => 2
  | .clear => 1
  | .done => 0

/-- The steps of a consumer to its end, while -1 is in `M[0]`. -/
def ConsPc.untilDone : ConsPc → Nat
  | .cmp => 2
  | .test => 1
  | _ => 0

/-- The steps of consumer `i` that the others wait for. -/
def due (m0 : Int) (i : Fin n) (pc : ConsPc) : Nat :=
  if m0 = -1 then pc.untilDone else if m0 = number i then pc.untilClear else 0

namespace Prodcons

def consumersLeft (s : Prodcons n) : Nat := ∑ i, due s.m0 i (s.cpc i)

def stepsLeft (s : Prodcons n) : Nat := 8 * s.todo.length + s.ppc.stepsLeft + s.consumersLeft

/-- `M[0]` is up to the process. -/
def Helps (s : Prodcons n) : Proc n → Prop
  | .producer => s.ppc ≠ .done ∧ (s.ppc.waits = true → s.m0 = 0)
  | .consumer i => s.m0 = number i ∨ s.m0 = -1 ∧ s.cpc i ≠ .done

variable {s s' : Prodcons n} {i : Fin n} {pc : ConsPc}

/-! ## The measure -/

/-- Consumer `i` goes on to `pc`. -/
theorem consumersLeft_goto (s : Prodcons n) (i : Fin n) (pc : ConsPc) :
    (s.goto i pc).consumersLeft + due s.m0 i (s.cpc i) = s.consumersLeft + due s.m0 i pc :=
  Tally.sum_update (due s.m0) s.cpc i pc

theorem consumersLeft_empty (h : s.m0 = 0) : s.consumersLeft = 0 := by
  refine Finset.sum_eq_zero fun i _ => ?_
  have hnumber := number_ne_zero i
  rw [h, due, if_neg (by decide), if_neg hnumber.symm]

/-- While the number of consumer `i` is there, nobody else is waited for. -/
theorem consumersLeft_number (h : s.m0 = number i) : s.consumersLeft = (s.cpc i).untilClear := by
  have hsingle : s.consumersLeft = due s.m0 i (s.cpc i) := by
    refine Finset.sum_eq_single i (fun j _ hj => ?_) fun hi => absurd (Finset.mem_univ i) hi
    rw [h, due, if_neg (number_ne_stop i), if_neg fun e => hj (number_inj.1 e).symm]
  rw [hsingle, h, due, if_neg (number_ne_stop i), if_pos rfl]

theorem consumersLeft_stop_le (h : s.m0 = -1) : s.consumersLeft ≤ 2 * n := by
  have hbound : ∀ i ∈ Finset.univ, due s.m0 i (s.cpc i) ≤ 2 := by
    intro i _
    rw [h, due, if_pos rfl]
    cases s.cpc i <;> simp [ConsPc.untilDone]
  have hsum := Finset.sum_le_card_nsmul Finset.univ _ 2 hbound
  rw [Finset.card_univ, Fintype.card_fin, smul_eq_mul] at hsum
  rw [consumersLeft]
  omega

theorem untilClear_le (pc : ConsPc) : pc.untilClear ≤ 4 := by
  cases pc <;> simp [ConsPc.untilClear]

/-- The head of the `for` loop makes nothing worse. -/
theorem stepsLeft_nextRound (s : Prodcons n) (p : Production n) (hpc : s.ppc = .tally p) :
    s.nextRound.stepsLeft < s.stepsLeft := by
  rcases s.nextRound_cases with ⟨htodo, h⟩ | ⟨q, todo, htodo, h⟩
  · rw [h, stepsLeft, stepsLeft, htodo, hpc]
    simp [ProdPc.stepsLeft, consumersLeft]
  · rw [h, stepsLeft, stepsLeft, htodo, hpc]
    simp [ProdPc.stepsLeft, consumersLeft]
    omega

/-! ## What a step does -/

/-- The end is nearer; or the process has only looked at `M[0]`, which was not up to it, and whoever helps still does. -/
def Eases (s : Prodcons n) (a : Proc n) (s' : Prodcons n) : Prop :=
  s'.stepsLeft < s.stepsLeft ∨ ¬ s.Helps a ∧ s'.stepsLeft ≤ s.stepsLeft ∧ ∀ b, s.Helps b → s'.Helps b

theorem due_number (h : s.m0 = number i) (pc : ConsPc) : due s.m0 i pc = pc.untilClear := by
  rw [h, due, if_neg (number_ne_stop i), if_pos rfl]

theorem due_stop (h : s.m0 = -1) (pc : ConsPc) : due s.m0 i pc = pc.untilDone := by
  rw [due, if_pos h]

theorem due_other (h : s.m0 ≠ number i) (h1 : s.m0 ≠ -1) (pc : ConsPc) : due s.m0 i pc = 0 := by
  rw [due, if_neg h1, if_neg h]

theorem stepsLeft_goto (s : Prodcons n) (i : Fin n) (pc : ConsPc) :
    (s.goto i pc).stepsLeft + due s.m0 i (s.cpc i) = s.stepsLeft + due s.m0 i pc := by
  have hsum := consumersLeft_goto s i pc
  have hsame : (s.goto i pc).stepsLeft = 8 * s.todo.length + s.ppc.stepsLeft + (s.goto i pc).consumersLeft := rfl
  rw [hsame, stepsLeft]
  omega

/-- Consumer `i` comes nearer to what it is waited for. -/
theorem goto_lt (h : due s.m0 i pc < due s.m0 i (s.cpc i)) : (s.goto i pc).stepsLeft < s.stepsLeft := by
  have hsum := stepsLeft_goto s i pc
  omega

/-- Consumer `i` looks at what is for another process. -/
theorem goto_looks (hi : s.m0 ≠ number i) (h1 : s.m0 ≠ -1) : s.Eases (.consumer i) (s.goto i pc) := by
  have hsum := stepsLeft_goto s i pc
  rw [due_other hi h1, due_other hi h1] at hsum
  refine .inr ⟨?_, Nat.le_of_eq hsum, ?_⟩
  · rintro (hnumber | ⟨hstop, -⟩)
    · exact hi hnumber
    · exact h1 hstop
  · intro b hb
    cases b with
    | producer => exact hb
    | consumer j => exact hb.imp id fun hstop => absurd hstop.1 h1

/-- The producer is where it was: it waits, and not for itself. -/
theorem not_helps_producer (h : s.step .producer = some s) : ¬ s.Helps .producer := by
  rintro ⟨-, hwaits⟩
  have hppc : Option.map ppc s.producer = some s.ppc := congrArg (Option.map ppc) h
  rw [producer] at hppc
  split at hppc
  next p hpc => simp [hpc, hwaits (by rw [hpc]; rfl)] at hppc
  next p hpc => simp [hpc] at hppc
  next p hpc => simp [hpc] at hppc
  next p hpc =>
    rcases nextRound_cases { s with
        consItemc := Function.update s.consItemc p.consumer (s.consItemc p.consumer + 1)
        consChecksum := Function.update s.consChecksum p.consumer (s.consChecksum p.consumer + s.m1) }
      with ⟨-, he⟩ | ⟨q, todo, -, he⟩
    · rw [he] at hppc
      simp [hpc] at hppc
    · rw [he] at hppc
      simp [hpc] at hppc
  next hpc => simp [hpc, hwaits (by rw [hpc]; rfl)] at hppc
  next hpc => simp [hpc] at hppc
  next hpc => simp at hppc

theorem eases_step (T : Turn s) {a : Proc n} (h : s.step a = some s') : s.Eases a s' := by
  cases move_of_step h with
  | spin => exact .inr ⟨not_helps_producer h, Nat.le_refl _, fun _ hb => hb⟩
  | found p hpc h0 =>
    refine .inl ?_
    simp [stepsLeft, hpc, ProdPc.stepsLeft, consumersLeft]
  | address p hpc =>
    refine .inl ?_
    have hbefore := consumersLeft_empty (T.empty p hpc)
    have hafter : consumersLeft { s with
        m0 := number p.consumer, ppc := .payload p, sent := s.sent ++ [p] } = (s.cpc p.consumer).untilClear :=
      consumersLeft_number rfl
    have hle := untilClear_le (s.cpc p.consumer)
    rw [stepsLeft, stepsLeft, hafter, hbefore, hpc]
    simp only [ProdPc.stepsLeft]
    omega
  | payload p hpc =>
    refine .inl ?_
    simp [stepsLeft, hpc, ProdPc.stepsLeft, consumersLeft]
  | tally p hpc =>
    refine .inl ?_
    have hnext := stepsLeft_nextRound { s with
      consItemc := Function.update s.consItemc p.consumer (s.consItemc p.consumer + 1)
      consChecksum := Function.update s.consChecksum p.consumer (s.consChecksum p.consumer + s.m1) } p hpc
    exact hnext
  | drained hpc h0 =>
    refine .inl ?_
    simp [stepsLeft, hpc, ProdPc.stepsLeft, consumersLeft]
  | stop hpc =>
    refine .inl ?_
    have hafter : consumersLeft { s with m0 := -1, ppc := .done } ≤ 2 * n := consumersLeft_stop_le rfl
    rw [stepsLeft, stepsLeft, hpc]
    simp only [ProdPc.stepsLeft]
    omega
  | enter i hpc h1 =>
    by_cases hi : s.m0 = number i
    · refine .inl (goto_lt ?_)
      rw [due_number hi, due_number hi, hpc]
      decide
    · exact goto_looks hi h1
  | leave i hpc h1 =>
    refine .inl (goto_lt ?_)
    rw [due_stop h1, due_stop h1, hpc]
    decide
  | mine i hpc hi =>
    refine .inl (goto_lt ?_)
    rw [due_number hi, due_number hi, hpc]
    decide
  | other i hpc hi =>
    by_cases h1 : s.m0 = -1
    · refine .inl (goto_lt ?_)
      rw [due_stop h1, due_stop h1, hpc]
      decide
    · exact goto_looks hi h1
  | add i hpc =>
    have hi := T.body i (.inl hpc)
    have hless : (s.goto i .clear).stepsLeft < s.stepsLeft := by
      refine goto_lt ?_
      rw [due_number hi, due_number hi, hpc]
      decide
    exact .inl hless
  | clear i hpc =>
    refine .inl ?_
    have hbefore := consumersLeft_number (T.body i (.inr hpc))
    have hafter : consumersLeft (goto { s with m0 := 0 } i .test) = 0 := consumersLeft_empty rfl
    rw [hpc] at hbefore
    rw [stepsLeft, stepsLeft, hafter, hbefore]
    simp [goto, ConsPc.untilClear]

/-! ## Who helps -/

/-- Nobody is blocked before its end. -/
theorem exists_step {a : Proc n} (h : ∀ i, a = .consumer i → s.cpc i ≠ .done) (hp : a = .producer → s.ppc ≠ .done) :
    ∃ s', s.step a = some s' := by
  cases a with
  | producer =>
    have hpc := hp rfl
    cases h' : s.ppc with
    | done => exact absurd h' hpc
    | spin p | address p | payload p | tally p | drain | stop => simp [step, producer, h']
  | consumer i =>
    have hpc := h i rfl
    cases h' : s.cpc i with
    | done => exact absurd h' hpc
    | test | cmp | add | clear => simp [step, consumer, h']

/-- Who helps has a next step. -/
theorem Turn.step_of_helps (T : Turn s) {a : Proc n} (ha : s.Helps a) : ∃ s', s.step a = some s' := by
  refine exists_step ?_ ?_
  · rintro i rfl hdone
    rcases ha with hnumber | ⟨-, hpc⟩
    · exact number_ne_stop i (hnumber.symm.trans (T.gone i hdone))
    · exact hpc hdone
  · rintro rfl
    exact ha.1

/-- Somebody can bring the end nearer. -/
theorem exists_helps {draws : List (Production n)} (T : Turn s) (B : Books draws s) (h : 0 < s.stepsLeft) :
    ∃ a, s.Helps a := by
  rcases T.cell with h0 | h1 | ⟨i, hi⟩
  · refine ⟨.producer, fun hdone => ?_, fun _ => h0⟩
    have hoff := T.off.2 hdone
    omega
  · have hdone := T.off.1 h1
    by_contra hnone
    push Not at hnone
    have hall : ∀ i, s.cpc i = .done := by
      intro i
      by_contra hi
      exact hnone (.consumer i) (.inr ⟨h1, hi⟩)
    have hzero : s.consumersLeft = 0 := by
      refine Finset.sum_eq_zero fun i _ => ?_
      rw [due_stop h1, hall i]
      rfl
    have htodo := B.ended (.inr (.inr hdone))
    rw [stepsLeft, hzero, htodo, hdone] at h
    exact absurd h (by simp [ProdPc.stepsLeft])
  · exact ⟨.consumer i, .inl hi⟩

theorem progress (draws : List (Production n)) :
    Trans.Progress step (fun s => Turn s ∧ Books draws s) stepsLeft Helps where
  inv hI h := ⟨hI.1.step h, hI.2.step h⟩
  exists_helps hI h := exists_helps hI.1 hI.2 h
  down hI ha := by
    obtain ⟨s', hs'⟩ := hI.1.step_of_helps ha
    rcases eases_step hI.1 hs' with hless | ⟨hnot, -, -⟩
    · exact ⟨s', hs', hless⟩
    · exact absurd ha hnot
  keep hI h := (eases_step hI.1 h).imp id fun hlooks => hlooks.2

/-- With nothing left to do everybody is at its end. -/
theorem done_of_stepsLeft (T : Turn s) (h : s.stepsLeft = 0) : s.ppc = .done ∧ ∀ i, s.cpc i = .done := by
  have hppc : s.ppc = .done := by
    cases hpc : s.ppc with
    | done => rfl
    | spin p | address p | payload p | tally p | drain | stop => simp [stepsLeft, hpc, ProdPc.stepsLeft] at h
  refine ⟨hppc, fun i => ?_⟩
  have hsum : s.consumersLeft = 0 := by
    rw [stepsLeft] at h
    omega
  have hi := Finset.sum_eq_zero_iff.1 hsum i (Finset.mem_univ i)
  have h1 := T.off.2 hppc
  rw [due_stop h1] at hi
  have hbody := T.not_body (.inr h1) i
  cases hpc : s.cpc i with
  | done => rfl
  | test | cmp => simp [hpc, ConsPc.untilDone] at hi
  | add => exact absurd hpc hbody.1
  | clear => exact absurd hpc hbody.2

end Prodcons

/-- **The session ends.** Whatever the order of the turns, as long as every process gets its turn again and again: from
some turn on the producer and all consumers are at their end, every production is consumed by its own consumer, and each
consumer has read as many items as the producer reports for it. -/
theorem fair_shutdown (draws : List (Production n)) (sched : ℕ → Proc n) (hfair : Trans.Fair sched) :
    ∃ N, ∀ k, N ≤ k →
      let s := Trans.course Prodcons.step sched (Prodcons.init draws) k
      s.ppc = .done ∧ (∀ i, s.cpc i = .done) ∧ s.took.map (·.consumer) = draws.map (·.consumer) ∧
        ∀ i, s.itemc i = s.consItemc i := by
  obtain ⟨N, hN⟩ := (Prodcons.progress draws).eventually hfair ⟨.init draws, .init draws⟩
  refine ⟨N, fun k hk => ?_⟩
  obtain ⟨T, B⟩ := Prodcons.inv_of_reach (Trans.course_reach sched (Prodcons.init draws) k)
  obtain ⟨hppc, hcpc⟩ := Prodcons.done_of_stepsLeft T (hN k hk)
  obtain ⟨htook, htallied⟩ := B.stopped T (.inr (T.off.2 hppc))
  refine ⟨hppc, hcpc, htook, fun i => ?_⟩
  rw [B.itemc, B.consItemc, htook, htallied]

/-- One consumer, two productions, turn by turn. -/
theorem fair_shutdown_turn_by_turn : ∃ N, ∀ k, N ≤ k →
    (Trans.course Prodcons.step (fun k => if k % 2 = 0 then .producer else .consumer 0)
      (Prodcons.init (n := 1) [⟨150, 0⟩, ⟨220, 0⟩]) k).ppc = .done := by
  have hfair : Trans.Fair fun k => if k % 2 = 0 then Proc.producer (n := 1) else .consumer 0 := by
    intro a k
    cases a with
    | producer => exact ⟨2 * k, by omega, by simp⟩
    | consumer i =>
      refine ⟨2 * k + 1, by omega, ?_⟩
      simp [Subsingleton.elim i 0]
  obtain ⟨N, hN⟩ := fair_shutdown [⟨150, 0⟩, ⟨220, 0⟩] _ hfair
  exact ⟨N, fun k hk => (hN k hk).1⟩

end OsLab.A4
