import OsLab.A2.Signals

/-!
# The slots of the process table (A2/mgr.c)

`isFull` (:36) looks at the last slot only. That is enough whatever signals come: a slot is given to the first process
that finds it empty and is never given back, so the slots in use stand in front of the empty ones. A signal between the
search for a slot (:121) and the entry (:134) resets `currChild`, and then the entry is written in front of the table.
-/

namespace OsLab.A2

open Function (update)
open Trans (Reach)

/-- Behind `isFull`, and before the table entry. -/
def Pc.allots : Pc → Bool
  | .fork | .slot _ | .record _ => true
  | _ => false

namespace Mgr

structure FillsUp (s : Mgr) : Prop where
  self : (s.PT 0).pid ≠ 0
  used : ∀ i j, 0 ≤ i → i ≤ j → j ≤ 10 → (s.PT j).pid ≠ 0 → (s.PT i).pid ≠ 0
  room : s.pc.allots = true → (s.PT 10).pid = 0
  slot : ∀ pid, s.pc = .record pid → s.currChild = -1 ∨ s.firstEmpty = some s.currChild

variable {s s' : Mgr} {m : Move} {f : Frame} {rest : List Frame} {i : Int}

theorem firstEmpty_congr (hpid : ∀ i, (s'.PT i).pid = (s.PT i).pid) : s'.firstEmpty = s.firstEmpty := by
  simp only [firstEmpty, hpid]

theorem firstEmpty_spec (h : s.firstEmpty = some i) :
    0 ≤ i ∧ i ≤ 10 ∧ (s.PT i).pid = 0 ∧ ∀ j, 0 ≤ j → j < i → (s.PT j).pid ≠ 0 := by
  obtain ⟨n, hn, rfl⟩ : ∃ n : Nat, ((List.range 11).find? fun i : Nat => (s.PT i).pid = 0) = some n ∧ (n : Int) = i := by
    cases hfind : (List.range 11).find? fun i : Nat => (s.PT i).pid = 0 with
    | none => simp [firstEmpty, hfind] at h
    | some n => exact ⟨n, rfl, by simpa [firstEmpty, hfind] using h⟩
  obtain ⟨hempty, hmem, hbefore⟩ := List.find?_range_eq_some.1 hn
  have hlt : n < 11 := List.mem_range.1 hmem
  refine ⟨by omega, by omega, by simpa using hempty, fun j hj hjn => ?_⟩
  lift j to Nat using hj
  simpa using hbefore j (by omega)

namespace FillsUp

/-- No entry is made. -/
theorem congr (F : s.FillsUp) (hpid : ∀ i, (s'.PT i).pid = (s.PT i).pid) (hroom : s'.pc.allots = true → s.pc.allots = true)
    (hrecord : ∀ pid, s'.pc = .record pid → s.pc = .record pid ∧ (s'.currChild = s.currChild ∨ s'.currChild = -1)) :
    s'.FillsUp where
  self := by
    rw [hpid]
    exact F.self
  used i j := by
    rw [hpid, hpid]
    exact F.used i j
  room h := by
    rw [hpid]
    exact F.room (hroom h)
  slot pid h := by
    obtain ⟨hpc, hsame | hreset⟩ := hrecord pid h
    · rw [hsame, firstEmpty_congr hpid]
      exact F.slot pid hpc
    · exact .inl hreset

theorem init (self : Int) (mem : Int → Entry) (hself : self ≠ 0) : (Mgr.init self mem).FillsUp where
  self := hself
  used i j hi hij hj h := by
    by_cases h0 : i = 0
    · rw [h0]
      exact hself
    · exact absurd (by simp [Mgr.init, show j ≠ 0 by omega, show 1 ≤ j by omega, hj]) h
  room h := by cases h
  slot pid h := by cases h

/-- The entry goes to the first empty slot, or in front of the table. -/
theorem record {pid : Int} (F : s.FillsUp) (hpc : s.pc = .record pid) (pc : Pc) (hallots : pc.allots = false) :
    FillsUp { s with PT := update s.PT s.currChild ⟨pid, .FINISHED⟩, pc := pc } := by
  have hroom : pc.allots = true → (update s.PT s.currChild ⟨pid, .FINISHED⟩ 10).pid = 0 := by
    intro h
    rw [hallots] at h
    cases h
  have hslot : ∀ p, pc ≠ .record p := by
    intro p hp
    rw [hp] at hallots
    cases hallots
  rcases F.slot pid hpc with hreset | hfirst
  · have hout : ∀ j, 0 ≤ j → (update s.PT s.currChild ⟨pid, .FINISHED⟩ j).pid = (s.PT j).pid := by
      intro j hj
      rw [Function.update_of_ne (by omega)]
    refine ⟨?_, fun i j hi hij hj h => ?_, hroom, fun p hp => absurd hp (hslot p)⟩
    · exact (hout 0 (Int.le_refl 0)).trans_ne F.self
    · exact (hout i hi).trans_ne (F.used i j hi hij hj ((hout j (by omega)).symm.trans_ne h))
  · obtain ⟨hlow, hhigh, hempty, hbefore⟩ := firstEmpty_spec hfirst
    have hpos : s.currChild ≠ 0 := by
      intro h
      rw [h] at hempty
      exact F.self hempty
    refine ⟨?_, fun i j hi hij hj h => ?_, hroom, fun p hp => absurd hp (hslot p)⟩
    · show (update s.PT s.currChild _ 0).pid ≠ 0
      rw [Function.update_of_ne hpos.symm]
      exact F.self
    · show (update s.PT s.currChild _ i).pid ≠ 0
      have hle : j ≤ s.currChild := by
        by_contra hlt
        have hne : j ≠ s.currChild := by omega
        have hj' : (s.PT j).pid ≠ 0 := by simpa [Function.update_of_ne hne] using h
        exact F.used s.currChild j hlow (by omega) hj hj' hempty
      by_cases hi' : i = s.currChild
      · obtain rfl : j = s.currChild := by omega
        rw [hi']
        exact h
      · rw [Function.update_of_ne hi']
        exact hbefore i hi (by omega)

theorem next (F : s.FillsUp) (h : Next s s') : s'.FillsUp := by
  cases h with
  | isFull hpc =>
    by_cases hfull : s.isFull = true
    · exact F.congr (fun _ => rfl) (by simp [goto, hfull, Pc.allots]) (by simp [goto, hfull])
    · have hlast : (s.PT 10).pid = 0 := by simpa [isFull] using hfull
      refine ⟨F.self, F.used, fun _ => hlast, fun pid hp => ?_⟩
      simp [goto, hfull] at hp
  | slot pid hpc =>
    have hlast := F.room (by rw [hpc]; rfl)
    obtain ⟨n, hn, -⟩ := exists_firstEmpty hlast
    refine ⟨F.self, F.used, fun _ => hlast, fun _ _ => .inr ?_⟩
    show s.firstEmpty = some (s.firstEmpty.getD s.currChild)
    rw [hn]
    rfl
  | record pid hpc => exact F.record hpc (.waitRun pid) rfl
  | waitRun | cont | kill | wait => exact F.congr (fun _ => rfl) (by simp [goto, Pc.allots]) (by simp [goto])
  | reset | set | decr => exact F.congr (fun _ => rfl) (by simp [Pc.allots]) (by simp)
  | test cmd hpc =>
    refine F.congr (fun _ => rfl) ?_ ?_
    · dsimp only [goto]
      split_ifs <;> simp [Pc.allots]
    · dsimp only [goto]
      split_ifs <;> simp
  | check cmd job hpc =>
    refine F.congr (fun _ => rfl) ?_ ?_
    · dsimp only [goto]
      split_ifs <;> simp [Pc.allots]
    · dsimp only [goto]
      split_ifs <;> simp
  | mark cmd job status hpc =>
    exact F.congr (fun _ => setStatus_pid _ _ _ _) (by simp [goto, Pc.allots]) (by simp [goto])

/-- A handler makes no entry, but it resets `currChild`. -/
theorem handler (F : s.FillsUp) (f : Frame) (rest : List Frame) : (s.handler f rest).FillsUp := by
  obtain ⟨hpid, hpc, hcc⟩ : (∀ i, ((s.handler f rest).PT i).pid = (s.PT i).pid) ∧ (s.handler f rest).pc = s.pc ∧
      ((s.handler f rest).currChild = s.currChild ∨ (s.handler f rest).currChild = -1) := by
    unfold Mgr.handler
    split
    · split_ifs <;> exact ⟨fun _ => rfl, rfl, .inl rfl⟩
    · exact ⟨fun _ => rfl, rfl, .inl rfl⟩
    · exact ⟨fun _ => setStatus_pid _ _ _ _, rfl, .inl rfl⟩
    · exact ⟨fun _ => setStatus_pid _ _ _ _, rfl, .inl rfl⟩
    · exact ⟨fun _ => rfl, rfl, .inl rfl⟩
    · exact ⟨fun _ => rfl, rfl, .inl rfl⟩
    · exact ⟨fun _ => rfl, rfl, .inr rfl⟩
  exact F.congr hpid (by rw [hpc]; exact id) fun pid h => ⟨hpc.symm.trans h, hcc⟩

theorem step (F : s.FillsUp) (h : s.step m = some s') : s'.FillsUp := by
  cases moved_of_step h with
  | command cmd =>
    cases cmd <;>
      exact F.congr (fun _ => rfl) (by simp [goto, afterCommand, Pc.allots]) (by simp [goto, afterCommand])
  | pick => exact F.congr (fun _ => rfl) (by simp [goto, Pc.allots]) (by simp [goto])
  | fork pid hquiet hpc => exact F.congr (fun _ => rfl) (fun _ => by rw [hpc]; rfl) (by simp)
  | next _ _ hnext => exact F.next hnext
  | handler f rest => exact F.handler f rest
  | signal | finish => exact F.congr (fun _ => rfl) id fun pid h => ⟨h, .inl rfl⟩

end FillsUp

/-- An entry stays. -/
theorem pid_of_next (F : s.FillsUp) (h : Next s s') (hi : 0 ≤ i) (hused : (s.PT i).pid ≠ 0) :
    (s'.PT i).pid = (s.PT i).pid := by
  cases h with
  | record pid hpc =>
    refine congrArg Entry.pid (Function.update_of_ne ?_ _ _)
    rcases F.slot pid hpc with hreset | hfirst
    · omega
    · intro he
      exact hused (he ▸ (firstEmpty_spec hfirst).2.2.1)
  | mark => exact setStatus_pid _ _ _ _
  | _ => rfl

theorem pid_of_step (F : s.FillsUp) (h : s.step m = some s') (hi : 0 ≤ i) (hused : (s.PT i).pid ≠ 0) :
    (s'.PT i).pid = (s.PT i).pid := by
  cases moved_of_step h with
  | next _ _ hnext => exact pid_of_next F hnext hi hused
  | handler f rest =>
    unfold Mgr.handler
    split
    · split_ifs <;> rfl
    all_goals first | rfl | exact setStatus_pid _ _ _ _
  | _ => rfl

/-- **The table fills up from the front.** Whatever commands are typed and whenever signals come: `isFull` says whether
all slots are in use, and a slot keeps its process. -/
theorem slots_fill_up (self : Int) (mem : Int → Entry) (hself : self ≠ 0) (s : Mgr)
    (h : Reach Mgr.step (Mgr.init self mem) s) :
    (s.isFull = true ↔ ∀ i, Slot i → (s.PT i).pid ≠ 0) ∧
      ∀ m s' i, s.step m = some s' → 0 ≤ i → (s.PT i).pid ≠ 0 → (s'.PT i).pid = (s.PT i).pid := by
  have F : s.FillsUp := h.inv (FillsUp.init self mem hself) fun _ _ _ _ F _ hs => F.step hs
  refine ⟨⟨fun hfull i hi => ?_, fun hall => ?_⟩, fun m s' i hs hi hused => pid_of_step F hs hi hused⟩
  · have hlast : (s.PT 10).pid ≠ 0 := by simpa [isFull] using hfull
    exact F.used i 10 (by have := hi.1; omega) hi.2 (Int.le_refl 10) hlast
  · simpa [isFull] using hall 10 ⟨by decide, by decide⟩

/-- ^Z comes between the search for a slot and the entry, and again by the handler's own `kill(0, SIGTSTP)`: the first slot
stays empty. -/
theorem slots_fill_up_interrupted : ∃ s : Mgr,
    Reach Mgr.step (Mgr.init 1 fun _ => ⟨0, .EMPTY⟩) s ∧ (s.PT (-1)).pid = 7 ∧ (s.PT 1).pid = 0 ∧ s.isFull = false := by
  obtain ⟨s, hr, hs⟩ := Trans.exists_reach_of_run Mgr.step (Mgr.init 1 fun _ => ⟨0, .EMPTY⟩)
    ([.command .r, .next, .fork 7, .next, .signal .TSTP] ++ List.replicate 5 .handler ++
      [.signal .TSTP, .handler, .next])
    (fun s => decide ((s.PT (-1)).pid = 7) && decide ((s.PT 1).pid = 0)) (by decide +kernel)
  rw [Bool.and_eq_true, decide_eq_true_eq, decide_eq_true_eq] at hs
  refine ⟨s, hr, hs.1, hs.2, Bool.eq_false_iff.2 fun hfull => ?_⟩
  exact ((slots_fill_up 1 _ (by decide) s hr).1.1 hfull) 1 ⟨by decide, by decide⟩ hs.2

end Mgr

end OsLab.A2
