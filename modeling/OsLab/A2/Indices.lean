import OsLab.A2.Mgr

/-!
# The indices into the table (A2/mgr.c)

`PT` has the cells 0..10. The loops over it (:96, :121, :149, :181) and `isFull` (:37) stay inside; every other index
is `currChild` or the number that was typed.

| here | there |
| --- | --- |
| `Mgr.index` | the index that the next statement uses: `currChild` in `r` (:135) and in the handler (:57-63), `job` in `c` and `k` (:160-164, :192-195) |
| `Pc.job` | the typed number while `c` and `k` hold it |
| `Steady` | the moves that keep it between 0 and 10 |

The handler resets `currChild` (:66) whatever it interrupts: `r` between the search for a slot and the use of what was
found, or another handler between its test and its last use (`index_out_of_step`).
-/

namespace OsLab.A2

open Function (update)

def Pc.job : Pc → Option Int
  | .check _ job | .set _ job | .kill _ job | .wait job | .mark _ job => some job
  | _ => none

/-- `r` has found a slot and not used it yet. -/
def Pc.records : Pc → Bool
  | .record _ => true
  | _ => false

theorem Pc.exists_record {pc : Pc} (h : pc.records = true) : ∃ pid, pc = .record pid := by
  cases pc with
  | record pid => exact ⟨pid, rfl⟩
  | _ => cases h

/-- The handler has tested `currChild` and not used it for the last time. -/
def HandlerPc.uses : HandlerPc → Bool
  | .count | .mark | .kill => true
  | .test | .reset => false

namespace Mgr

variable {s s' : Mgr} {f : Frame} {rest : List Frame} {sig : Sig} {m : Move} {i : Int}

def index (s : Mgr) : Option Int :=
  match s.handlers with
  | f :: _ => if f.pc = .mark ∨ f.pc = .kill then some s.currChild else none
  | [] =>
    match s.pc with
    | .record _ => some s.currChild
    | .check _ job | .kill _ job | .wait job | .mark _ job => some job
    | _ => none

/-- The number that is typed is one of the table's. A signal arrives while `currChild` is -1, or while neither `r` nor
a handler is about to use it. -/
def Steady (s : Mgr) : Move → Prop
  | .pick job => 0 ≤ job ∧ job ≤ 10
  | .signal _ => s.currChild = -1 ∨ s.pc.records = false ∧ ∀ f ∈ s.handlers, f.pc.uses = false
  | _ => True

instance (s : Mgr) : ∀ m, Decidable (s.Steady m)
  | .pick job => inferInstanceAs (Decidable (0 ≤ job ∧ job ≤ 10))
  | .signal _ => inferInstanceAs (Decidable (s.currChild = -1 ∨ s.pc.records = false ∧ ∀ f ∈ s.handlers, f.pc.uses = false))
  | .command _ | .fork _ | .next | .handler | .finish _ => isTrue trivial

/-- A cell of the table. -/
def Cell (i : Int) : Prop := 0 ≤ i ∧ i ≤ 10

/-! ## The invariant -/

structure IndexInv (s : Mgr) : Prop where
  child : s.currChild = -1 ∨ Cell s.currChild
  job : ∀ job ∈ s.pc.job, Cell job
  /-- `r` goes on only when the last cell is empty. -/
  room : s.pc = .fork ∨ (∃ pid, s.pc = .slot pid) → (s.PT 10).pid = 0
  recording : s.pc.records = true → s.handlers = [] ∧ s.currChild ≠ -1
  engaged : ∀ f ∈ s.handlers, f.pc.uses = true → s.currChild ≠ -1
  below : ∀ f rest, s.handlers = f :: rest → ∀ g ∈ rest, g.pc.uses = false

namespace IndexInv

theorem init (self : Int) (mem : Int → Entry) : IndexInv (Mgr.init self mem) where
  child := .inl rfl
  job := by simp [Mgr.init, Pc.job]
  room := by simp [Mgr.init]
  recording := by simp [Mgr.init, Pc.records]
  engaged := by simp [Mgr.init]
  below := by simp [Mgr.init]

/-- No handler is under way after the step. -/
theorem quiet (hquiet : s.handlers = []) (hchild : s.currChild = -1 ∨ Cell s.currChild) (hjob : ∀ job ∈ s.pc.job, Cell job)
    (hroom : s.pc = .fork ∨ (∃ pid, s.pc = .slot pid) → (s.PT 10).pid = 0)
    (hrecord : s.pc.records = true → s.currChild ≠ -1) : IndexInv s where
  child := hchild
  job := hjob
  room := hroom
  recording h := ⟨hquiet, hrecord h⟩
  engaged f hf := by simp [hquiet] at hf
  below f rest hf := by simp [hquiet] at hf

theorem next (I : IndexInv s) (hquiet : s.handlers = []) (h : s.Next s') : IndexInv s' := by
  cases h with
  | isFull hpc =>
    refine quiet hquiet I.child ?_ ?_ ?_
    · unfold Mgr.goto
      split_ifs <;> nofun
    · intro hfork
      unfold Mgr.goto at hfork ⊢
      split_ifs at hfork with hfull
      · simp at hfork
      · simpa [Mgr.isFull] using hfull
    · unfold Mgr.goto
      split_ifs <;> nofun
  | slot pid hpc =>
    obtain ⟨n, hn, hlt, -⟩ := exists_firstEmpty (I.room (.inr ⟨pid, hpc⟩))
    have hchild : s.firstEmpty.getD s.currChild = n := by rw [hn, Option.getD_some]
    have hcell : Cell (s.firstEmpty.getD s.currChild) := by
      rw [hchild, Cell]
      omega
    have hne : s.firstEmpty.getD s.currChild ≠ -1 := by
      rw [hchild]
      omega
    exact quiet hquiet (.inr hcell) nofun (by simp) fun _ => hne
  | record pid hpc => exact quiet hquiet I.child nofun (by simp) nofun
  | waitRun pid hpc => exact quiet hquiet I.child nofun (by simp [Mgr.goto]) nofun
  | reset hpc => exact quiet hquiet (.inl rfl) nofun (by simp) nofun
  | test cmd hpc =>
    unfold Mgr.goto
    split_ifs
    · exact quiet hquiet I.child nofun (by simp) nofun
    · exact quiet hquiet I.child nofun (by simp) nofun
  | check cmd job hpc =>
    have hjob := I.job job (by rw [hpc]; rfl)
    unfold Mgr.goto
    split_ifs
    · exact quiet hquiet I.child (by simpa [Pc.job] using hjob) (by simp) nofun
    · exact quiet hquiet I.child nofun (by simp) nofun
  | set cmd job hpc =>
    have hjob := I.job job (by rw [hpc]; rfl)
    exact quiet hquiet (.inr hjob) (by simpa [Pc.job] using hjob) (by simp) nofun
  | cont job hpc | kill job hpc | wait job hpc =>
    have hjob := I.job job (by rw [hpc]; rfl)
    exact quiet hquiet I.child (by simpa [Mgr.goto, Pc.job] using hjob) (by simp [Mgr.goto]) nofun
  | mark cmd job status hpc => exact quiet hquiet I.child nofun (by simp [Mgr.goto]) nofun
  | decr hpc => exact quiet hquiet I.child nofun (by simp) nofun

/-- The innermost handler goes on or returns. -/
theorem inHandler (I : IndexInv s) (hf : s.handlers = f :: rest) (hpc : s'.pc = s.pc)
    (hroom : (s'.PT 10).pid = (s.PT 10).pid) (hchild : s'.currChild = -1 ∨ s'.currChild = s.currChild)
    (hhandlers : s'.handlers = rest ∨ ∃ g, s'.handlers = g :: rest ∧ (g.pc.uses = true → s'.currChild ≠ -1)) :
    IndexInv s' where
  child := by
    rcases hchild with h | h
    · exact .inl h
    · rw [h]
      exact I.child
  job := by
    rw [hpc]
    exact I.job
  room := by
    rw [hpc, hroom]
    exact I.room
  recording h := by
    rw [hpc] at h
    have hquiet := (I.recording h).1
    rw [hf] at hquiet
    cases hquiet
  engaged x hx huse := by
    have hrest : x ∉ rest := fun hx => by simp [I.below f rest hf x hx] at huse
    rcases hhandlers with h | ⟨g, h, hg⟩
    · exact absurd (h ▸ hx) hrest
    · rw [h] at hx
      obtain rfl := (List.mem_cons.1 hx).resolve_right hrest
      exact hg huse
  below x rest' hx y hy := by
    rcases hhandlers with h | ⟨g, h, -⟩
    · exact I.below f rest hf y (h ▸ hx ▸ List.mem_cons_of_mem x hy)
    · rw [h] at hx
      cases hx
      exact I.below f rest hf y hy

theorem handler (I : IndexInv s) (hf : s.handlers = f :: rest) : IndexInv (s.handler f rest) := by
  have hengaged : f.pc.uses = true → s.currChild ≠ -1 := I.engaged f (by rw [hf]; exact List.mem_cons_self)
  obtain ⟨sig, pc⟩ := f
  cases pc with
  | test =>
    rw [Mgr.handler]
    split_ifs with hcc
    · exact I.inHandler hf rfl rfl (.inr rfl) (.inl rfl)
    · exact I.inHandler hf rfl rfl (.inr rfl) (.inr ⟨_, rfl, fun _ => hcc⟩)
  | count => exact I.inHandler hf rfl rfl (.inr rfl) (.inr ⟨_, rfl, fun _ => hengaged rfl⟩)
  | mark =>
    cases sig with
    | INT | TSTP => exact I.inHandler hf rfl (setStatus_pid ..) (.inr rfl) (.inr ⟨_, rfl, fun _ => hengaged rfl⟩)
  | kill =>
    cases sig with
    | INT | TSTP => exact I.inHandler hf rfl rfl (.inr rfl) (.inr ⟨_, rfl, nofun⟩)
  | reset => exact I.inHandler hf rfl rfl (.inl rfl) (.inl rfl)

theorem signal (I : IndexInv s) (hok : s.Steady (.signal sig)) :
    IndexInv { s with handlers := ⟨sig, .test⟩ :: s.handlers } where
  child := I.child
  job := I.job
  room := I.room
  recording h := by
    rcases hok with hcc | ⟨hrecords, -⟩
    · exact absurd hcc (I.recording h).2
    · rw [hrecords] at h
      cases h
  engaged x hx huse := by
    rcases List.mem_cons.1 hx with rfl | hx
    · cases huse
    · exact I.engaged x hx huse
  below x rest hx y hy := by
    cases hx
    rcases hok with hcc | ⟨-, hfree⟩
    · exact Bool.eq_false_iff.2 fun huse => I.engaged y hy huse hcc
    · exact hfree y hy

theorem step (I : IndexInv s) (hok : s.Steady m) (h : s.step m = some s') : IndexInv s' := by
  cases moved_of_step h with
  | command cmd hquiet hpc =>
    cases cmd with
    | _ => exact quiet hquiet I.child nofun (by simp [Mgr.goto, afterCommand]) nofun
  | pick cmd job hquiet hpc =>
    have hjob : Cell job := hok
    exact quiet hquiet I.child (by simpa [Mgr.goto, Pc.job] using hjob) (by simp [Mgr.goto]) nofun
  | fork pid hquiet hpc => exact quiet hquiet I.child nofun (fun _ => I.room (.inl hpc)) nofun
  | next s' hquiet hnext => exact I.next hquiet hnext
  | handler f rest hf => exact I.handler hf
  | signal sig => exact I.signal hok
  | finish pid => exact ⟨I.child, I.job, I.room, I.recording, I.engaged, I.below⟩

/-- What the next statement uses is in the table. -/
theorem index (I : IndexInv s) : ∀ i ∈ s.index, Cell i := by
  have hcell : s.currChild ≠ -1 → Cell s.currChild := I.child.resolve_left
  intro i hi
  unfold Mgr.index at hi
  split at hi
  · next f rest hf =>
    split_ifs at hi with huse
    · cases hi
      refine hcell (I.engaged f (by rw [hf]; exact List.mem_cons_self) ?_)
      rcases huse with h | h <;> rw [h] <;> rfl
    · cases hi
  · split at hi
    · next pid hpc =>
      cases hi
      exact hcell (I.recording (by rw [hpc]; rfl)).2
    all_goals first
      | cases hi
        next hpc => exact I.job _ (by rw [hpc]; rfl)
      | cases hi

end IndexInv

/-- **Indices into the table are between 0 and 10** in a run whose steps are all steady. -/
theorem indices_in_range (self : Int) (mem : Int → Entry) (s : Mgr)
    (h : Trans.ReachIf Mgr.step Steady (Mgr.init self mem) s) : ∀ i ∈ s.index, 0 ≤ i ∧ i ≤ 10 := by
  have I : IndexInv s := h.inv (.init self mem) fun _ _ _ _ I hok hs => I.step hok hs
  exact I.index

/-- A job is run and suspended; `1` is typed to continue it. -/
theorem indices_in_range_continued : ∃ s : Mgr,
    Trans.ReachIf Mgr.step Steady (Mgr.init 1 fun _ => ⟨0, .EMPTY⟩) s ∧ s.index = some 1 ∧ 0 ≤ (1 : Int) ∧ (1 : Int) ≤ 10 := by
  obtain ⟨s, hr, hs⟩ := Trans.exists_reachIf_of_run Mgr.step Steady (Mgr.init 1 fun _ => ⟨0, .EMPTY⟩)
    [.command .r, .next, .fork 5, .next, .next, .signal .TSTP, .handler, .handler, .handler, .handler, .handler,
      .next, .next, .command .c, .next, .pick 1]
    (fun s => decide (s.index = some 1)) (by decide +kernel)
  have hindex := of_decide_eq_true hs
  exact ⟨s, hr, hindex, indices_in_range 1 (fun _ => ⟨0, .EMPTY⟩) s hr 1 hindex⟩

/-- A job is run and suspended; `20` is typed to continue it. -/
theorem index_out_of_range : ¬ ∀ s : Mgr, Trans.Reach Mgr.step (Mgr.init 1 fun _ => ⟨0, .EMPTY⟩) s →
    ∀ i ∈ s.index, 0 ≤ i ∧ i ≤ 10 := by
  intro h
  obtain ⟨s, hr, hs⟩ := Trans.exists_reach_of_run Mgr.step (Mgr.init 1 fun _ => ⟨0, .EMPTY⟩)
    [.command .r, .next, .fork 5, .next, .next, .signal .TSTP, .handler, .handler, .handler, .handler, .handler,
      .next, .next, .command .c, .next, .pick 20]
    (fun s => decide (s.index = some 20)) (by decide +kernel)
  have hrange := h s hr 20 (of_decide_eq_true hs)
  omega

/-! ## A step that is not steady -/

/-- A handler that finds `currChild` set resets it. -/
theorem reach_reset (hf : s.handlers = ⟨sig, .test⟩ :: rest) (hcc : s.currChild ≠ -1) :
    ∃ t, Trans.Reach Mgr.step s t ∧ t.handlers = rest ∧ t.currChild = -1 ∧ t.pc = s.pc := by
  obtain ⟨n, t, ht, hkeep⟩ : ∃ n t, Trans.run Mgr.step s (List.replicate n .handler) = some t ∧ t.handlers = rest ∧
      t.currChild = -1 ∧ t.pc = s.pc := by
    cases sig with
    | INT => exact ⟨4, by simp [Trans.run, List.replicate, Mgr.step, Mgr.handler, hf, hcc, setStatus, send]⟩
    | TSTP => exact ⟨5, by simp [Trans.run, List.replicate, Mgr.step, Mgr.handler, hf, hcc, setStatus, send]⟩
  exact ⟨t, Trans.reach_of_run _ ht, hkeep⟩

/-- A handler that has tested `currChild` uses it, although it is -1 by now. -/
theorem reach_use (hf : s.handlers = f :: rest) (huse : f.pc.uses = true) :
    ∃ t, Trans.Reach Mgr.step s t ∧ t.index = some s.currChild := by
  obtain ⟨sig, pc⟩ := f
  cases pc with
  | test | reset => cases huse
  | count =>
    have hstep : s.step .handler =
        some { s with numSuspended := s.numSuspended + 1, handlers := ⟨sig, .mark⟩ :: rest } := by
      rw [Mgr.step, hf]
      rfl
    exact ⟨_, .single trivial hstep, rfl⟩
  | mark | kill => exact ⟨s, .refl, by simp [Mgr.index, hf]⟩

/-- The condition is exact: after a step that does not meet it an index outside the table can be used. -/
theorem index_out_of_step {self : Int} {mem : Int → Entry}
    (h : Trans.ReachIf Mgr.step Steady (Mgr.init self mem) s) (hnot : ¬ s.Steady m) (hs : s.step m = some s') :
    ∃ t, Trans.Reach Mgr.step s' t ∧ ∃ i ∈ t.index, ¬ (0 ≤ i ∧ i ≤ 10) := by
  have I : IndexInv s := h.inv (.init self mem) fun _ _ _ _ I hok hs => I.step hok hs
  cases moved_of_step hs with
  | command | fork | next | handler | finish => exact absurd trivial hnot
  | pick cmd job hquiet hpc => exact ⟨_, .refl, job, by simp [Mgr.index, goto, hquiet], hnot⟩
  | signal sig hother =>
    have hnot' : ¬ (s.currChild = -1 ∨ s.pc.records = false ∧ ∀ f ∈ s.handlers, f.pc.uses = false) := hnot
    rw [not_or, not_and_or] at hnot'
    obtain ⟨hcc, hbusy⟩ := hnot'
    obtain ⟨t, ht, hhandlers, hcc', hpc⟩ := reach_reset (s := { s with handlers := ⟨sig, .test⟩ :: s.handlers }) rfl hcc
    rcases hbusy with hrecords | huses
    · rw [Bool.not_eq_false] at hrecords
      obtain ⟨pid, hrecord⟩ := Pc.exists_record hrecords
      refine ⟨t, ht, -1, ?_, by omega⟩
      simp [Mgr.index, hhandlers, (I.recording hrecords).1, hpc, hrecord, hcc']
    · obtain ⟨f, rest, hf⟩ : ∃ f rest, s.handlers = f :: rest :=
        List.exists_cons_of_ne_nil fun hquiet => huses (by simp [hquiet])
      have huse : f.pc.uses = true := by
        by_contra hnot
        apply huses
        intro g hg
        rw [hf] at hg
        rcases List.mem_cons.1 hg with rfl | hg
        · exact Bool.eq_false_iff.2 hnot
        · exact I.below f rest hf g hg
      obtain ⟨u, hu, hindex⟩ := reach_use (hhandlers.trans hf) huse
      exact ⟨u, ht.trans hu, -1, hcc' ▸ hindex, by omega⟩

end Mgr

end OsLab.A2
