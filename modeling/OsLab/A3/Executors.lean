import OsLab.A3.Processes

/-!
# A failed execvp (A3/CSE_21CS30009.c)

A forked process whose `execvp` fails falls out of the `if` (:131-148, :195-212) and goes on in the loop of its parent,
which waits for it. So the process that reads is still one, but the session ends later: when the forked process leaves
on `exit`, its parent comes back from `wait`, clears its buffer and reads on, and nobody is left who could send it
another `exit`.

`oneReader_iff`: there is one reader before `exit` and none behind it exactly if no `execvp` failed, or `exit` has not been
sent. `Phase` follows who has which role; a side on which `execvp` has failed `f` times has `f` processes in `wait` until it reads `exit`.
-/

namespace OsLab.A3

open Function (update)

/-! ## The moves so far -/

def ExitSent (as : List SessionMove) : Prop := ∃ d i, .enter d i exit ∈ as

def isFailure (d : Side) : SessionMove → Bool
  | .exec r _ true => r = d
  | _ => false

/-- How many times `execvp` has failed on side `d`. -/
def failures (d : Side) (as : List SessionMove) : Nat := as.countP (isFailure d)

namespace Session

/-- Only a new command can go on. -/
def Quiet (s : Session) : Prop := ∀ m s', s.step m = some s' → ∃ d i command, m = .enter d i command

/-- Process `i` of side `d` is reading commands. -/
def Reads (s : Session) (r : Side × Nat) : Prop := ∃ p, s.proc r.1 r.2 = some p ∧ p.pc = .read

/-- One process executes commands before `exit` is sent, and none is left reading afterwards. -/
def OneReader (as : List SessionMove) (s : Session) : Prop :=
  (¬ ExitSent as → ∃! r, s.Reads r) ∧ (ExitSent as → ∀ r, ¬ s.Reads r)

end Session

variable {as : List SessionMove} {x x' : Stacks} {d : Side} {m : SessionMove} {y : Stack} {f : Nat}

theorem failures_append (d : Side) (as : List SessionMove) (m : SessionMove) :
    failures d (as ++ [m]) = failures d as + if isFailure d m then 1 else 0 := by
  rw [failures, List.countP_append, List.countP_singleton]
  rfl

/-- Only a failing `execvp` counts. -/
theorem failures_of_not (hm : ∀ r i, m ≠ .exec r i true) (d : Side) : failures d (as ++ [m]) = failures d as := by
  rw [failures_append, if_neg, Nat.add_zero]
  intro hfail
  cases m with
  | exec r i fails =>
    cases fails with
    | false => cases hfail
    | true => exact hm r i rfl
  | _ => cases hfail

theorem exitSent_append : ExitSent (as ++ [m]) ↔ ExitSent as ∨ ∃ d i, m = .enter d i exit := by
  constructor
  · rintro ⟨d, i, h⟩
    rcases List.mem_append.1 h with h | h
    · exact .inl ⟨d, i, h⟩
    · exact .inr ⟨d, i, (List.mem_singleton.1 h).symm⟩
  · rintro (⟨d, i, h⟩ | ⟨d, i, rfl⟩)
    · exact ⟨d, i, List.mem_append_left _ h⟩
    · exact ⟨d, i, by simp⟩

theorem failures_eq_zero : failures d as = 0 ↔ ∀ i, .exec d i true ∉ as := by
  rw [failures, List.countP_eq_zero]
  constructor
  · intro h i hi
    exact h _ hi (by simp [isFailure])
  · intro h m hm hfail
    cases m with
    | exec r i fails =>
      cases fails with
      | false => cases hfail
      | true =>
        obtain rfl : r = d := by simpa [isFailure] using hfail
        exact h i hm
    | _ => cases hfail

/-! ## Who has which role -/

/-- In the execute role: at `read`, or with a command under way. -/
def Working (y : Stack) (f : Nat) : Prop :=
  y.top = .read ∧ y.depth = f ∨ (y.top = .exec ∨ y.top = .running ∨ y.top = .exited) ∧ y.depth = f + 1

/-- Past `exit`: the youngest process has left, and its parent has come back if there was one. -/
def Ended (y : Stack) (f : Nat) : Prop := y.top = .exited ∧ y.depth = f ∨ y.top = .read ∧ y.depth + 1 = f

inductive Phase (as : List SessionMove) (x : Stacks) : Prop
  | turn (d : Side) : ¬ ExitSent as → (x.side d).top = .prompt → (x.side d).depth = failures d as →
      Working (x.side d.other) (failures d.other as) → x.pipe d ≠ exit → x.pipe d ≠ swaprole → x.pipe d.other = [] →
      Phase as x
  /-- `swaprole` is on its way. -/
  | swap (d : Side) : ¬ ExitSent as → (x.side d).top = .read → (x.side d).depth = failures d as →
      Working (x.side d.other) (failures d.other as) → x.pipe d = swaprole → x.pipe d.other = [] → Phase as x
  /-- `exit` is on its way. -/
  | leave (d : Side) : ExitSent as → Ended (x.side d) (failures d as) →
      Working (x.side d.other) (failures d.other as) → x.pipe d = exit → x.pipe d.other = [] → Phase as x
  | ended : ExitSent as → (∀ d, Ended (x.side d) (failures d as)) → (∀ d, x.pipe d = []) → Phase as x

theorem Phase.init : Phase [] Stacks.init := by
  refine .turn .c ?_ rfl rfl (.inl ⟨rfl, rfl⟩) (by simp [Stacks.init, exit, ascii]) (by simp [Stacks.init, swaprole, ascii]) rfl
  rintro ⟨d, i, h⟩
  cases h

theorem Side.eq_or_other (r d : Side) : r = d ∨ r = d.other := by
  cases r <;> cases d <;> simp [Side.other]

theorem Working.top_ne (W : Working y f) : y.top ≠ .prompt := by
  rcases W with ⟨h, -⟩ | ⟨h | h | h, -⟩ <;> rw [h] <;> simp

theorem Working.depth_of_read (W : Working y f) (h : y.top = .read) : y.depth = f := by
  rcases W with ⟨-, hd⟩ | ⟨h' | h' | h', -⟩
  · exact hd
  all_goals
    rw [h] at h'
    cases h'

theorem Working.depth_of_ne_read (W : Working y f) (h : y.top ≠ .read) : y.depth = f + 1 := by
  rcases W with ⟨h', -⟩ | ⟨-, hd⟩
  · exact absurd h' h
  · exact hd

theorem Ended.top_ne (E : Ended y f) : y.top ≠ .prompt ∧ y.top ≠ .exec ∧ y.top ≠ .running := by
  rcases E with ⟨h, -⟩ | ⟨h, -⟩ <;> rw [h] <;> simp

@[simp] theorem Stacks.set_same (x : Stacks) (d : Side) (y : Stack) : (x.set d y).side d = y := Function.update_self _ _ _

theorem Stacks.set_other (x : Stacks) {d r : Side} (y : Stack) (h : r ≠ d) : (x.set d y).side r = x.side r :=
  Function.update_of_ne h _ _

/-- `d` has taken what the other side sent. -/
theorem Stacks.taken (x : Stacks) (d : Side) (y : Stack) :
    ((x.setPipe d.other []).set d y).side d.other = x.side d.other ∧
      ((x.setPipe d.other []).set d y).pipe d.other = [] ∧ ((x.setPipe d.other []).set d y).pipe d = x.pipe d :=
  ⟨Function.update_of_ne d.other_ne _ _, Function.update_self _ _ _, Function.update_of_ne d.other_ne.symm _ _⟩

theorem nil_ne_exit : ([] : List UInt8) ≠ exit := by simp [exit, ascii]

theorem nil_ne_swaprole : ([] : List UInt8) ≠ swaprole := by simp [swaprole, ascii]

namespace Phase

/-- A step of side `r` outside of the prompt and of `read`. -/
theorem internal (P : Phase as x) {r : Side} (hexit : ExitSent (as ++ [m]) ↔ ExitSent as)
    (hother : failures r.other (as ++ [m]) = failures r.other as)
    (htop : (x.side r).top ≠ .prompt ∧ (x.side r).top ≠ .read)
    (hwork : Working (x.side r) (failures r as) → Working y (failures r (as ++ [m])))
    (hend : Ended (x.side r) (failures r as) → Ended y (failures r (as ++ [m]))) : Phase (as ++ [m]) (x.set r y) := by
  cases P with
  | turn d hsent hd hdepth W h1 h2 h3 =>
    obtain rfl | rfl := r.eq_or_other d
    · exact absurd hd htop.1
    have hside := x.set_other y d.other_ne.symm
    rw [Side.other_other] at hother
    exact .turn d (mt hexit.1 hsent) (hside ▸ hd) (by rw [hside, hother, hdepth]) (by rw [Stacks.set_same]; exact hwork W)
      h1 h2 h3
  | swap d hsent hd hdepth W h1 h2 =>
    obtain rfl | rfl := r.eq_or_other d
    · exact absurd hd htop.2
    have hside := x.set_other y d.other_ne.symm
    rw [Side.other_other] at hother
    exact .swap d (mt hexit.1 hsent) (hside ▸ hd) (by rw [hside, hother, hdepth]) (by rw [Stacks.set_same]; exact hwork W)
      h1 h2
  | leave d hsent E W h1 h2 =>
    obtain rfl | rfl := r.eq_or_other d
    · refine .leave r (hexit.2 hsent) (by rw [Stacks.set_same]; exact hend E) ?_ h1 h2
      rw [x.set_other y r.other_ne, hother]
      exact W
    · rw [Side.other_other] at hother
      refine .leave d (hexit.2 hsent) ?_ (by rw [Stacks.set_same]; exact hwork W) h1 h2
      rw [x.set_other y d.other_ne.symm, hother]
      exact E
  | ended hsent E h =>
    refine .ended (hexit.2 hsent) (fun d => ?_) h
    obtain rfl | rfl := d.eq_or_other r
    · rw [Stacks.set_same]
      exact hend (E d)
    · rw [x.set_other y r.other_ne, hother]
      exact E r.other

/-- A command is sent. -/
theorem enter (P : Phase as x) {i : Nat} {command : List UInt8} (htop : (x.side d).top = .prompt) :
    Phase (as ++ [.enter d i command]) ((x.setPipe d command).set d ⟨afterSend command, (x.side d).depth⟩) := by
  have hfail : ∀ r, failures r (as ++ [.enter d i command]) = failures r as := failures_of_not (by simp)
  have hside : ∀ z, ((x.setPipe d command).set d z).side d.other = x.side d.other := fun z =>
    Function.update_of_ne d.other_ne _ _
  have hpipe : ∀ z, ((x.setPipe d command).set d z).pipe d = command := fun z => Function.update_self _ _ _
  have hpipe' : ∀ z, ((x.setPipe d command).set d z).pipe d.other = x.pipe d.other := fun z =>
    Function.update_of_ne d.other_ne _ _
  cases P with
  | turn r hsent hr hdepth W h1 h2 h3 =>
    obtain rfl : d = r := by
      refine (d.eq_or_other r).resolve_right ?_
      rintro rfl
      exact W.top_ne htop
    have hkeep : command ≠ exit → ¬ ExitSent (as ++ [.enter d i command]) := by
      intro hne h
      rcases exitSent_append.1 h with h | ⟨_, _, h⟩
      · exact hsent h
      · cases h
        exact hne rfl
    by_cases hexit : command = exit
    · subst hexit
      refine .leave d (exitSent_append.2 (.inr ⟨d, i, rfl⟩)) ?_ (by rw [hside, hfail]; exact W) (hpipe _) ((hpipe' _).trans h3)
      rw [Stacks.set_same, hfail]
      exact .inl ⟨rfl, hdepth⟩
    by_cases hswap : command = swaprole
    · subst hswap
      refine .swap d (hkeep hexit) ?_ ?_ (by rw [hside, hfail]; exact W) (hpipe _) ((hpipe' _).trans h3)
      · rw [Stacks.set_same]
        rfl
      · rw [Stacks.set_same, hfail, hdepth]
    · refine .turn d (hkeep hexit) ?_ ?_ (by rw [hside, hfail]; exact W) (by rwa [hpipe]) (by rwa [hpipe]) ((hpipe' _).trans h3)
      · rw [Stacks.set_same, afterSend, if_neg hexit, if_neg hswap]
      · rw [Stacks.set_same, hfail, hdepth]
  | swap r hsent hr hdepth W h1 h2 =>
    obtain rfl | rfl := d.eq_or_other r
    · rw [hr] at htop
      cases htop
    · exact absurd htop W.top_ne
  | leave r hsent E W h1 h2 =>
    obtain rfl | rfl := d.eq_or_other r
    · exact absurd htop E.top_ne.1
    · exact absurd htop W.top_ne
  | ended hsent E h => exact absurd htop (E d).top_ne.1

/-- Who reads a command has the execute role, and the other side has sent it. -/
theorem sender (P : Phase as x) (htop : (x.side d).top = .read) (hpipe : x.pipe d.other ≠ []) :
    (x.side d).depth = failures d as ∧ x.pipe d = [] ∧
      (¬ ExitSent as ∧ (x.side d.other).top = .prompt ∧ (x.side d.other).depth = failures d.other as ∧
          x.pipe d.other ≠ exit ∧ x.pipe d.other ≠ swaprole ∨
        ¬ ExitSent as ∧ (x.side d.other).top = .read ∧ (x.side d.other).depth = failures d.other as ∧
          x.pipe d.other = swaprole ∨
        ExitSent as ∧ Ended (x.side d.other) (failures d.other as) ∧ x.pipe d.other = exit) := by
  cases P with
  | turn r hsent hr hdepth W h1 h2 h3 =>
    obtain rfl | rfl := d.eq_or_other r
    · rw [hr] at htop
      cases htop
    · rw [Side.other_other]
      exact ⟨W.depth_of_read htop, h3, .inl ⟨hsent, hr, hdepth, h1, h2⟩⟩
  | swap r hsent hr hdepth W h1 h2 =>
    obtain rfl | rfl := d.eq_or_other r
    · exact absurd h2 hpipe
    · rw [Side.other_other]
      exact ⟨W.depth_of_read htop, h2, .inr (.inl ⟨hsent, hr, hdepth, h1⟩)⟩
  | leave r hsent E W h1 h2 =>
    obtain rfl | rfl := d.eq_or_other r
    · exact absurd h2 hpipe
    · rw [Side.other_other]
      exact ⟨W.depth_of_read htop, h2, .inr (.inr ⟨hsent, E, h1⟩)⟩
  | ended hsent E h => exact absurd (h _) hpipe

theorem step (P : Phase as x) (h : Turn x m x') : Phase (as ++ [m]) x' := by
  have hsent : (∀ d i, m ≠ .enter d i exit) → (ExitSent (as ++ [m]) ↔ ExitSent as) := by
    intro hm
    rw [exitSent_append, or_iff_left]
    rintro ⟨d, i, rfl⟩
    exact hm d i rfl
  cases h with
  | enter d i command htop hpipe hcommand => exact P.enter htop
  | exec d i fails htop =>
    have hsame : failures d.other (as ++ [.exec d i fails]) = failures d.other as := by
      cases fails <;> simp [failures_append, isFailure, d.other_ne.symm]
    refine P.internal (hsent (by simp)) hsame (by simp [htop]) (fun W => ?_) (fun E => absurd htop E.top_ne.2.1)
    have hdepth := W.depth_of_ne_read (by simp [htop])
    cases fails with
    | false => exact .inr ⟨by simp, by simpa [failures_append, isFailure] using hdepth⟩
    | true => exact .inl ⟨by simp, by simpa [failures_append, isFailure] using hdepth⟩
  | finish d i htop =>
    have hsame : ∀ r, failures r (as ++ [.finish d i]) = failures r as := failures_of_not (by simp)
    refine P.internal (hsent (by simp)) (hsame _) (by simp [htop]) (fun W => ?_) (fun E => absurd htop E.top_ne.2.2)
    have hdepth := W.depth_of_ne_read (by simp [htop])
    exact .inr ⟨.inr (.inr rfl), (hsame d).symm ▸ hdepth⟩
  | collect d i j k htop hk =>
    have hsame : ∀ r, failures r (as ++ [.collect d i j]) = failures r as := failures_of_not (by simp)
    refine P.internal (hsent (by simp)) (hsame _) (by simp [htop]) (fun W => ?_) (fun E => ?_)
    · have hdepth := W.depth_of_ne_read (by simp [htop])
      exact .inl ⟨rfl, by rw [hsame]; show k = _; omega⟩
    · rcases E with ⟨-, hdepth⟩ | ⟨h, -⟩
      · exact .inr ⟨rfl, by rw [hsame]; show k + 1 = _; omega⟩
      · rw [htop] at h
        cases h
  | fork d i htop hne hexit hswap =>
    have hsame : ∀ r, failures r (as ++ [.receive d i]) = failures r as := failures_of_not (by simp)
    obtain ⟨hdepth, hempty, ⟨hs, h1, h2, -, -⟩ | ⟨-, -, -, h⟩ | ⟨-, -, h⟩⟩ := P.sender htop hne
    · obtain ⟨hside, hpipe, hpipe'⟩ := x.taken d ⟨.exec, (x.side d).depth + 1⟩
      refine .turn d.other (mt (hsent (by simp)).1 hs) (by rw [hside, h1]) (by rw [hside, hsame, h2]) ?_ ?_ ?_ ?_
      · rw [Side.other_other, Stacks.set_same, hsame]
        exact .inr ⟨.inl rfl, congrArg (· + 1) hdepth⟩
      · rw [hpipe]; exact nil_ne_exit
      · rw [hpipe]; exact nil_ne_swaprole
      · rw [Side.other_other, hpipe', hempty]
    · exact absurd h hswap
    · exact absurd h hexit
  | swap d i htop hswap =>
    have hsame : ∀ r, failures r (as ++ [.receive d i]) = failures r as := failures_of_not (by simp)
    have hne : x.pipe d.other ≠ [] := hswap ▸ nil_ne_swaprole.symm
    obtain ⟨hdepth, hempty, ⟨-, -, -, -, h⟩ | ⟨hs, h1, h2, -⟩ | ⟨-, -, h⟩⟩ := P.sender htop hne
    · exact absurd hswap h
    · obtain ⟨hside, hpipe, hpipe'⟩ := x.taken d ⟨.prompt, (x.side d).depth⟩
      refine .turn d (mt (hsent (by simp)).1 hs) (by rw [Stacks.set_same]) ?_ ?_ ?_ ?_ hpipe
      · rw [Stacks.set_same, hsame, hdepth]
      · rw [hside, hsame]
        exact .inl ⟨h1, h2⟩
      · rw [hpipe', hempty]; exact nil_ne_exit
      · rw [hpipe', hempty]; exact nil_ne_swaprole
    · rw [hswap] at h
      exact absurd h (by decide)
  | leave d i htop hexit =>
    have hsame : ∀ r, failures r (as ++ [.receive d i]) = failures r as := failures_of_not (by simp)
    have hne : x.pipe d.other ≠ [] := hexit ▸ nil_ne_exit.symm
    obtain ⟨hdepth, hempty, ⟨-, -, -, h, -⟩ | ⟨-, -, -, h⟩ | ⟨hs, E, -⟩⟩ := P.sender htop hne
    · exact absurd hexit h
    · rw [hexit] at h
      exact absurd h (by decide)
    · obtain ⟨hside, hpipe, hpipe'⟩ := x.taken d ⟨.exited, (x.side d).depth⟩
      refine .ended ((hsent (by simp)).2 hs) (fun r => ?_) fun r => ?_
      · rw [hsame]
        obtain rfl | rfl := r.eq_or_other d
        · rw [Stacks.set_same]
          exact .inl ⟨rfl, hdepth⟩
        · rw [hside]
          exact E
      · obtain rfl | rfl := r.eq_or_other d
        · rw [hpipe', hempty]
        · exact hpipe

end Phase

/-! ## At rest -/

namespace Session

variable {s : Session}

/-- Of a side that is quiet, the youngest process is at the prompt, or reads an empty pipe, or has left for good. -/
theorem Quiet.stack (hq : s.Quiet) (A : Abs s x) (d : Side) :
    (x.side d).top = .prompt ∨ (x.side d).top = .read ∧ x.pipe d.other = [] ∨
      (x.side d).top = .exited ∧ (x.side d).depth = 0 := by
  obtain ⟨t, c, F⟩ := A.family d
  obtain ⟨p, hp, htop⟩ := F.top
  cases hpc : (x.side d).top with
  | prompt => exact .inl rfl
  | read =>
    refine .inr (.inl ⟨rfl, ?_⟩)
    by_contra hne
    obtain ⟨_, _, _, h⟩ := hq (.receive d t) _ (by
      rw [step, hp, Option.bind_some, receive, if_pos ⟨htop.trans hpc, by rw [A.pipe]; exact hne⟩])
    cases h
  | exec =>
    obtain ⟨_, _, _, h⟩ := hq (.exec d t false) _ (by rw [step, hp, Option.bind_some, exec, if_pos (htop.trans hpc)])
    cases h
  | running =>
    obtain ⟨_, _, _, h⟩ := hq (.finish d t) _ (by rw [step, hp, Option.bind_some, finish, if_pos (htop.trans hpc)])
    cases h
  | wait => exact absurd hpc F.busy.1
  | reaped => exact absurd hpc F.busy.2
  | exited =>
    refine .inr (.inr ⟨rfl, ?_⟩)
    cases c with
    | nil => exact F.depth.symm
    | cons i c =>
      -- its parent could collect it
      obtain ⟨q, hi, hwait⟩ := F.chain.waits_of_mem (i := i) (by simp)
      obtain ⟨_, _, _, h⟩ := hq (.collect d i t) _ (by
        rw [step, hi, Option.bind_some, hp, Option.bind_some, collect,
          if_pos ⟨hwait, F.chain.parent_of_cons hp, htop.trans hpc⟩])
      cases h

theorem Reads.top {i : Nat} (h : s.Reads (d, i)) (A : Abs s x) : (x.side d).top = .read := by
  obtain ⟨p, hp, hpc⟩ := h
  exact ((A.top_of hp (by simp [hpc]) (by simp [hpc])).1).trans hpc

theorem exists_reads (A : Abs s x) (h : (x.side d).top = .read) : ∃ i, s.Reads (d, i) := by
  obtain ⟨t, c, F⟩ := A.family d
  obtain ⟨p, hp, htop⟩ := F.top
  exact ⟨t, p, hp, htop.trans h⟩

/-- One process of a side that reads. -/
theorem existsUnique_reads (A : Abs s x) (h : (x.side d).top = .read) (hother : (x.side d.other).top ≠ .read) :
    ∃! r, s.Reads r := by
  obtain ⟨t, c, F⟩ := A.family d
  obtain ⟨p, hp, htop⟩ := F.top
  refine ⟨(d, t), ⟨p, hp, htop.trans h⟩, ?_⟩
  rintro ⟨r, i⟩ hr
  obtain rfl | rfl := r.eq_or_other d
  · obtain ⟨q, hq, hpc⟩ := hr
    have hi : i = t := (F.eq_top hq (by simp [hpc]) (by simp [hpc])).1
    rw [hi]
  · exact absurd (hr.top A) hother

/-- In the execute role and quiet: at `read`. -/
theorem Quiet.working (hq : s.Quiet) (A : Abs s x) (W : Working (x.side d) f) :
    (x.side d).top = .read ∧ x.pipe d.other = [] := by
  rcases hq.stack A d with h | h | ⟨h, hdepth⟩
  · exact absurd h W.top_ne
  · exact h
  · rcases W with ⟨h', -⟩ | ⟨-, h'⟩
    · rw [h] at h'
      cases h'
    · omega

/-- Past `exit`, somebody reads on a side where `execvp` has failed, and only there. -/
theorem Quiet.ended (hq : s.Quiet) (A : Abs s x) (E : Ended (x.side d) f) : (∀ i, ¬ s.Reads (d, i)) ↔ f = 0 := by
  rcases E with ⟨htop, hdepth⟩ | ⟨htop, hdepth⟩
  · refine iff_of_true (fun i hr => ?_) ?_
    · rw [hr.top A] at htop
      cases htop
    · rcases hq.stack A d with h | ⟨h, -⟩ | ⟨-, h⟩
      · rw [htop] at h; cases h
      · rw [htop] at h; cases h
      · omega
  · obtain ⟨i, hi⟩ := exists_reads A htop
    exact iff_of_false (fun h => h i hi) (by omega)

end Session

theorem exists_abs {s : Session} (h : Trans.run Session.step .init as = some s) : ∃ x, Abs s x ∧ Phase as x :=
  Trans.run_inv (I := fun as s => ∃ x, Abs s x ∧ Phase as x) ⟨_, .init, .init⟩
    (fun _ _ _ _ ⟨_, A, P⟩ ht => (A.step ht).imp fun _ hx => ⟨hx.2, P.step hx.1⟩) h

/-- Of the processes of a side never more than one reads. -/
theorem reads_unique {s : Session} {i j : Nat} (h : Trans.run Session.step .init as = some s) (hi : s.Reads (d, i))
    (hj : s.Reads (d, j)) : i = j := by
  obtain ⟨x, A, -⟩ := exists_abs h
  obtain ⟨t, c, F⟩ := A.family d
  obtain ⟨p, hp, hpc⟩ := hi
  obtain ⟨q, hq, hqc⟩ := hj
  have hit : i = t := (F.eq_top hp (by simp [hpc]) (by simp [hpc])).1
  have hjt : j = t := (F.eq_top hq (by simp [hqc]) (by simp [hqc])).1
  rw [hit, hjt]

/-- **One process reads until `exit` is sent, and none afterwards,** exactly if no `execvp` failed or `exit` has not been
sent. -/
theorem oneReader_iff {s : Session} (h : Trans.run Session.step .init as = some s) (hq : s.Quiet) :
    s.OneReader as ↔ (ExitSent as → ∀ d i, .exec d i true ∉ as) := by
  obtain ⟨x, A, P⟩ := exists_abs h
  cases P with
  | turn d hsent hd hdepth W h1 h2 h3 =>
    refine iff_of_true ⟨fun _ => ?_, fun h => absurd h hsent⟩ fun h => absurd h hsent
    refine Session.existsUnique_reads A (hq.working A W).1 ?_
    rw [Side.other_other, hd]
    simp
  | swap d hsent hd hdepth W h1 h2 =>
    have hread := (hq.working A W).2
    rw [Side.other_other, h1] at hread
    exact absurd hread nil_ne_swaprole.symm
  | leave d hsent E W h1 h2 =>
    have hread := (hq.working A W).2
    rw [Side.other_other, h1] at hread
    exact absurd hread nil_ne_exit.symm
  | ended hsent E h =>
    have hside : ∀ d, (∀ i, ¬ s.Reads (d, i)) ↔ ∀ i, .exec d i true ∉ as := fun d =>
      (hq.ended A (E d)).trans failures_eq_zero
    constructor
    · intro hc _ d
      exact (hside d).1 fun i => hc.2 hsent (d, i)
    · intro hc
      exact ⟨fun h => absurd hsent h, fun _ r => (hside r.1).2 (hc hsent r.1) r.2⟩

/-! ## Sessions with one command -/

/-- What the first `n` processes of either side could do besides entering a command. -/
def movesBelow (n : Nat) : List SessionMove :=
  [Side.c, .e].flatMap fun d => (List.range n).flatMap fun i =>
    [.receive d i, .exec d i true, .exec d i false, .finish d i] ++ (List.range n).map (.collect d i)

theorem mem_movesBelow {s s' : Session} {n : Nat} (A : Abs s x) (hborn : ∀ d, s.born d ≤ n) (h : s.step m = some s') :
    (∃ d i command, m = .enter d i command) ∨ m ∈ movesBelow n := by
  have hlt : ∀ {d i p}, s.proc d i = some p → i < n := by
    intro d i p hp
    obtain ⟨t, c, F⟩ := A.family d
    by_contra hge
    rw [F.fresh i (by have := hborn d; omega)] at hp
    cases hp
  have hside : ∀ d : Side, d ∈ [Side.c, .e] := fun d => by cases d <;> simp
  rw [movesBelow]
  simp only [List.mem_flatMap, List.mem_append, List.mem_map, List.mem_range]
  cases m with
  | enter d i command => exact .inl ⟨d, i, command, rfl⟩
  | receive d i =>
    obtain ⟨p, hp, -⟩ := Option.bind_eq_some_iff.1 h
    exact .inr ⟨d, hside d, i, hlt hp, .inl (by simp)⟩
  | exec d i fails =>
    obtain ⟨p, hp, -⟩ := Option.bind_eq_some_iff.1 h
    exact .inr ⟨d, hside d, i, hlt hp, .inl (by cases fails <;> simp)⟩
  | finish d i =>
    obtain ⟨p, hp, -⟩ := Option.bind_eq_some_iff.1 h
    exact .inr ⟨d, hside d, i, hlt hp, .inl (by simp)⟩
  | collect d i j =>
    obtain ⟨p, hp, h⟩ := Option.bind_eq_some_iff.1 h
    obtain ⟨q, hq, -⟩ := Option.bind_eq_some_iff.1 h
    exact .inr ⟨d, hside d, i, hlt hp, .inr ⟨j, hlt hq, rfl⟩⟩

/-- A run that ends at rest, by evaluation. -/
theorem exists_quiet_run (as : List SessionMove) (n : Nat) (p : Session → Bool)
    (h : (Trans.run Session.step .init as).any (fun s => [Side.c, .e].all (fun d => s.born d ≤ n) &&
      (movesBelow n).all (fun m => (s.step m).isNone) && p s) = true) :
    ∃ s, Trans.run Session.step .init as = some s ∧ s.Quiet ∧ p s = true := by
  obtain ⟨s, hs, hp⟩ := (Option.any_eq_true _ _).1 h
  simp only [Bool.and_eq_true, List.all_eq_true, decide_eq_true_eq, Option.isNone_iff_eq_none] at hp
  obtain ⟨⟨hborn, hmoves⟩, hp⟩ := hp
  obtain ⟨x, A, -⟩ := exists_abs hs
  refine ⟨s, hs, fun m s' hm => ?_, hp⟩
  refine (mem_movesBelow A (fun d => hborn d (by cases d <;> simp)) hm).resolve_right fun hmem => ?_
  rw [hmoves m hmem] at hm
  cases hm

/-- A command that is executed, and `exit`. -/
theorem oneReader_iff_ls : ∃ s, Trans.run Session.step .init [.enter .c 0 (ascii ['l', 's']), .receive .e 0, .exec .e 1 false,
    .finish .e 1, .collect .e 0 1, .enter .c 0 exit, .receive .e 0] = some s ∧ s.Quiet ∧
    ∀ r, ¬ s.Reads r := by
  obtain ⟨s, hs, hq, -⟩ := exists_quiet_run [.enter .c 0 (ascii ['l', 's']), .receive .e 0, .exec .e 1 false, .finish .e 1,
    .collect .e 0 1, .enter .c 0 exit, .receive .e 0] 2 (fun _ => true) (by decide +kernel)
  have hsent : ExitSent [.enter .c 0 (ascii ['l', 's']), .receive .e 0, .exec .e 1 false, .finish .e 1, .collect .e 0 1,
      .enter .c 0 exit, .receive .e 0] := ⟨.c, 0, by simp⟩
  exact ⟨s, hs, hq, ((oneReader_iff hs hq).2 (by simp)).2 hsent⟩

/-- `execvp` fails for a command, then comes `exit`: the process that forked reads on. -/
theorem failed_exec_reader : ∃ as s, Trans.run Session.step .init as = some s ∧ s.Quiet ∧ ¬ s.OneReader as := by
  obtain ⟨s, hs, hq, hread⟩ := exists_quiet_run [.enter .c 0 (ascii ['x']), .receive .e 0, .exec .e 1 true, .enter .c 0 exit,
    .receive .e 1, .collect .e 0 1] 2 (fun s => (s.proc .e 0).any (·.pc = .read)) (by decide +kernel)
  refine ⟨_, s, hs, hq, fun h => ?_⟩
  obtain ⟨p, hp, hpc⟩ := (Option.any_eq_true _ _).1 hread
  exact h.2 ⟨.c, 0, by simp⟩ (.e, 0) ⟨p, hp, by simpa using hpc⟩

end OsLab.A3
