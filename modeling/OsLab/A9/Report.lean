import OsLab.A9.Frame
import OsLab.A9.Result

/-!
# What a run of `rsync.c` reports

| here | there |
| --- | --- |
| `Proc.marks` | the marks `[o]`, `[+]`, `[-]`, `[t]`, `[p]` that are printed for a path, first to last |
| `syncMarks`, `syncReport` | what `sync_directories` prints for an object of the source and one of the destination; for a path |
| `changeMarks`, `changeReport` | the same for `change_timestamps_and_perms` |

The report depends on the two trees only (`report_exact`), and says what has changed (`reported_iff_changed`): what is at a
path changes if and only if the path has a mark, but for what goes with a directory and for a directory that could not be
removed. A second run is silent (`second_run_silent`).
-/

namespace OsLab.A9

open FileSys FS

variable {env : Env} {fs fs' fs'' : FS} {src dst d : Path} {n : Name} {q : Path} {w w' w'' : Proc}
  {report report' : Path → List String}

/-! ## Marks -/

/-- The mark that the event prints for `p`. -/
def Event.mark (p : Path) : Event → Option String
  | .printed mark path => if path = p then some mark else none
  | _ => none

namespace Proc

def marks (w : Proc) (p : Path) : List String := (w.log.filterMap (Event.mark p)).reverse

@[simp] theorem marks_call (w : Proc) (f : FS → FS) (p : Path) : (w.call f).marks p = w.marks p := rfl

@[simp] theorem marks_opened (w : Proc) (fd : Option Path) (p : Path) : (w.opened fd).marks p = w.marks p := by
  cases fd <;> rfl

@[simp] theorem marks_closed (w : Proc) (fd : Option Path) (p : Path) : (w.closed fd).marks p = w.marks p := by
  cases fd <;> rfl

theorem marks_print (w : Proc) (mark : String) (path p : Path) :
    (w.print mark path).marks p = w.marks p ++ if path = p then [mark] else [] := by
  by_cases h : path = p
  · simp [marks, print, Event.mark, h]
  · simp [marks, print, Event.mark, h]

end Proc

/-- What is printed for the path itself only. -/
def here (marks : List String) : Path → List String
  | [] => marks
  | _ :: _ => []

/-- `report` is printed at and below `d`, and nothing elsewhere. -/
structure Prints (d : Path) (report : Path → List String) (w w' : Proc) : Prop where
  off : ∀ p, ¬ d <:+ p → w'.marks p = w.marks p
  below : ∀ q, w'.marks (q ++ d) = w.marks (q ++ d) ++ report q

namespace Prints

theorem nothing (h : ∀ p, w'.marks p = w.marks p) : Prints d (fun _ => []) w w' :=
  ⟨fun p _ => h p, fun q => by rw [h, List.append_nil]⟩

theorem congr (h : Prints d report w w') (hreport : ∀ q, report q = report' q) : Prints d report' w w' :=
  ⟨h.off, fun q => by rw [h.below, hreport]⟩

theorem trans (h : Prints d report w w') (h' : Prints d report' w' w'') :
    Prints d (fun q => report q ++ report' q) w w'' :=
  ⟨fun p hp => (h'.off p hp).trans (h.off p hp), fun q => by rw [h'.below, h.below, List.append_assoc]⟩

theorem after (hquiet : ∀ p, w'.marks p = w.marks p) (h : Prints d report w' w'') : Prints d report w w'' :=
  (Prints.trans (.nothing hquiet) h).congr fun _ => List.nil_append _

/-- What comes behind prints nothing. -/
theorem quiet (h : Prints d report w w') (hquiet : ∀ p, w''.marks p = w'.marks p) : Prints d report w w'' :=
  (h.trans (.nothing hquiet)).congr fun _ => List.append_nil _

theorem silent (h : ∀ p, w'.marks p = w.marks p) : Prints d (here []) w w' :=
  (nothing h).congr fun q => by cases q <;> rfl

theorem print (w : Proc) (mark : String) (d : Path) : Prints d (here [mark]) w (w.print mark d) where
  off p hp := by
    have hne : d ≠ p := by
      rintro rfl
      exact hp (List.suffix_refl d)
    rw [Proc.marks_print, if_neg hne, List.append_nil]
  below q := by
    rw [Proc.marks_print]
    cases q with
    | nil => rw [List.nil_append, if_pos rfl, here]
    | cons m q =>
      have hne : d ≠ m :: q ++ d := fun h => absurd (congrArg List.length h) (by simp; omega)
      rw [if_neg hne, here]

theorem here_append (a b : List String) (q : Path) : here a q ++ here b q = here (a ++ b) q := by
  cases q <;> rfl

end Prints

/-- A loop over `d` that prints `report n` for the entry `n`; `done` are the names returned so far. -/
structure Printed (report : Name → Path → List String) (d : Path) (w w' : Proc) (done : List Name) : Prop where
  off : ∀ p, ¬ d <:+ p → w'.marks p = w.marks p
  self : w'.marks d = w.marks d
  entry : ∀ n q, w'.marks (q ++ n :: d) = w.marks (q ++ n :: d) ++ if n ∈ done then report n q else []

namespace Printed
variable {report : Name → Path → List String} {done : List Name}

theorem start (h : ∀ p, w'.marks p = w.marks p) : Printed report d w w' [] :=
  ⟨fun p _ => h p, h d, fun n q => by rw [h, if_neg List.not_mem_nil, List.append_nil]⟩

theorem step (h : Printed report d w w' done) (hn : n ∉ done) (hround : Prints (n :: d) (report n) w' w'') :
    Printed report d w w'' (n :: done) where
  off p hp := (hround.off p fun hs => hp ((List.suffix_cons n d).trans hs)).trans (h.off p hp)
  self := (hround.off d (not_cons_suffix n d)).trans h.self
  entry m q := by
    by_cases hm : m = n
    · subst hm
      rw [hround.below, h.entry, if_neg hn, if_pos List.mem_cons_self, List.append_nil]
    · have hoff : ¬ n :: d <:+ q ++ m :: d := (Apart.siblings hm d).not_suffix_append q
      rw [hround.off _ hoff, h.entry]
      simp [hm]

/-- A name with nothing to print may be returned more than once. -/
theorem skip (h : Printed report d w w' done) (hn : ∀ q, report n q = []) (hround : ∀ p, w''.marks p = w'.marks p) :
    Printed report d w w'' (n :: done) where
  off p hp := (hround p).trans (h.off p hp)
  self := (hround d).trans h.self
  entry m q := by
    rw [hround, h.entry]
    by_cases hm : m = n
    · subst hm
      simp [hn]
    · simp [hm]

end Printed

/-- A loop whose rounds print nothing prints nothing. -/
theorem eachEntry_marks {σ : Type} {f : Name → σ → Except Stop σ} (get : σ → Proc) {p : Path}
    (hf : ∀ n s s', f n s = .ok s' → (get s').marks p = (get s).marks p) {items : List Dirent} {s s' : σ}
    (h : eachEntry f items s = .ok s') : (get s').marks p = (get s).marks p := by
  induction items generalizing s with
  | nil =>
    cases h
    rfl
  | cons item items ih =>
    cases item with
    | self => exact ih h
    | parent => exact ih h
    | entry n =>
      rw [eachEntry] at h
      cases hround : f n s with
      | error e =>
        rw [hround] at h
        cases h
      | ok t =>
        rw [hround] at h
        exact (ih h).trans (hf n s t hround)

theorem copyFile_marks (srcPath dstPath : Path) (srcStat : Stat) (w : Proc) (p : Path) :
    (copyFile env srcPath dstPath srcStat w).marks p = w.marks p := by
  simp [copyFile]

theorem removeEntry_marks {rec : Path → Proc → Except Stop Proc} {p : Path}
    (hrec : ∀ d w w', rec d w = .ok w' → w'.marks p = w.marks p) {v v' : Proc × Stat} (h : removeEntry rec d n v = .ok v') :
    v'.1.marks p = v.1.marks p := by
  simp only [removeEntry] at h
  split at h
  · obtain ⟨w, hw, h⟩ := bind_eq_ok.1 h
    cases h
    exact hrec _ _ _ hw
  · cases h
    rfl

/-- `remove_directory` prints nothing. -/
theorem removeDirectory_marks (fuel : Nat) (p : Path) :
    ∀ d w w', removeDirectory env fuel d w = .ok w' → w'.marks p = w.marks p := by
  induction fuel with
  | zero =>
    intro d w w' h
    cases h
  | succ fuel ih =>
    intro d w w' h
    simp only [removeDirectory] at h
    split at h
    · cases h
    · obtain ⟨v, hv, h⟩ := bind_eq_ok.1 h
      cases h
      have hloop := eachEntry_marks (p := p) Prod.fst (fun n s s' hround => removeEntry_marks ih hround) hv
      simpa using hloop

/-! ## The first pass -/

/-- What the round of an entry prints (`:73-161`); the second loop where the source has nothing (`:177-183`). -/
def syncMarks : Option Obj → Option Obj → List String
  | some (.reg content mtime _), some (.reg content' mtime' _) =>
    if content.length = content'.length ∧ mtime = mtime' then [] else ["[o]"]
  | some (.dir _), some (.dir _) => []
  | some (.reg ..), none | some (.dir _), none => ["[+]"]
  | some (.reg ..), some _ | some (.dir _), some _ => ["[-]", "[+]"]
  | none, some _ => ["[-]"]
  | _, _ => []

/-- The paths of the source's directories are visited. -/
def syncReport (fs : FS) (src dst : Path) : Path → List String
  | [] => []
  | n :: q =>
    if fs.kind (q ++ src) = some .dir then syncMarks (fs.get (n :: (q ++ src))) (fs.get (n :: (q ++ dst))) else []

/-- The same for an entry. -/
def entryReport (fs : FS) (src dst q : Path) : List String :=
  here (syncMarks (fs.get src) (fs.get dst)) q ++ syncReport fs src dst q

theorem syncReport_entry (hs : fs.kind src = some .dir) (n : Name) (q : Path) :
    syncReport fs src dst (q ++ [n]) = entryReport fs (n :: src) (n :: dst) q := by
  cases q with
  | nil => simp [syncReport, entryReport, here, hs]
  | cons m q => simp [syncReport, entryReport, here]

/-- What is no directory has no entries to visit. -/
theorem syncReport_leaf (hs : fs.kind src ≠ some .dir) (q : Path) : syncReport fs src dst q = [] := by
  cases q with
  | nil => rfl
  | cons m q =>
    refine if_neg ?_
    by_cases hq : q = []
    · rwa [hq]
    · rw [fs.kind_below_none hs q hq]
      simp

/-- The report is about what is below the two directories. -/
theorem syncReport_congr (hs : SameBelow src fs fs') (hd : ∀ q, q ≠ [] → fs'.get (q ++ dst) = fs.get (q ++ dst)) (q : Path) :
    syncReport fs' src dst q = syncReport fs src dst q := by
  cases q with
  | nil => rfl
  | cons m q =>
    have hdst := hd (m :: q) (List.cons_ne_nil m q)
    have hsrc := hs (m :: q)
    rw [List.cons_append] at hdst hsrc
    rw [syncReport, syncReport, hs.kind, hdst, hsrc]

/-- A file that looks like the source's is left alone. -/
def Spares (fs fs' : FS) (src dst : Path) : Prop :=
  ∀ q content content' mtime perm perm', fs.get (q ++ src) = some (.reg content mtime perm) →
    fs.get (q ++ dst) = some (.reg content' mtime perm') → content.length = content'.length →
    fs'.get (q ++ dst) = fs.get (q ++ dst)

namespace Spares

theorem isLocal : Local Spares where
  before h hs hd q content content' mtime perm perm' hsrc hdst hlen := by
    rw [← hd q]
    exact h q content content' mtime perm perm' (by rw [hs q, hsrc]) (by rw [hd q, hdst]) hlen
  after h hd q content content' mtime perm perm' hsrc hdst hlen := by
    rw [hd q]
    exact h q content content' mtime perm perm' hsrc hdst hlen

theorem refl : Spares fs fs src dst := fun _ _ _ _ _ _ _ _ _ => rfl

/-- There is no such file. -/
theorem ofDir (hs : fs.kind src = some .dir) (hd : fs.kind dst ≠ some .dir) : Spares fs fs' src dst := by
  intro q content content' mtime perm perm' hsrc hdst _
  by_cases hq : q = []
  · rw [hq, List.nil_append] at hsrc
    rw [FS.kind, hsrc] at hs
    cases hs
  · rw [fs.get_below_none hd q hq] at hdst
    cases hdst

end Spares

section
variable {p srcPath : Path} {content : List UInt8} {ms : Int} {ps : BitVec 12} {srcStat dstStat : Stat} {o : Option Obj}

theorem syncReg_prints (hstat : srcStat = (Obj.reg content ms ps).stat) (hdst : StatOf o dstStat) :
    Prints p (here (syncMarks (some (.reg content ms ps)) o)) w (syncReg env srcPath p srcStat dstStat w) := by
  have hprint := fun w mark => Prints.print w mark p
  subst hstat
  cases o with
  | none =>
    rw [syncReg, show dstStat.kind = none from hdst, if_neg (by simp), if_pos rfl]
    exact (hprint w "[+]").quiet fun q => copyFile_marks _ _ _ _ q
  | some o =>
    obtain rfl : dstStat = o.stat := hdst
    have hreplaced : o.stat.kind ≠ some .reg → Prints p (here ["[-]", "[+]"]) w
        (syncReg env srcPath p (Obj.reg content ms ps).stat o.stat w) := by
      intro hreg
      rw [syncReg, if_neg hreg, if_neg (by rw [o.stat_kind]; simp)]
      have hgone : Prints p (here ["[-]"]) w ((w.print "[-]" p).call (FS.remove · p)) :=
        (hprint w "[-]").quiet fun _ => rfl
      have hboth := (hgone.trans (hprint _ "[+]")).congr fun q => Prints.here_append ["[-]"] ["[+]"] q
      exact hboth.quiet fun q => copyFile_marks _ _ _ _ q
    cases o with
    | reg content' ms' ps' =>
      have hstat : (Obj.reg content ms ps).stat.size = (Obj.reg content' ms' ps').stat.size ∧
        (Obj.reg content ms ps).stat.mtime = (Obj.reg content' ms' ps').stat.mtime ↔
          content.length = content'.length ∧ ms = ms' := Iff.rfl
      by_cases hsame : content.length = content'.length ∧ ms = ms'
      · rw [syncReg, if_pos (by rfl), if_pos (hstat.2 hsame), syncMarks, if_pos hsame]
        exact .silent fun _ => rfl
      · rw [syncReg, if_pos (by rfl), if_neg (mt hstat.1 hsame), syncMarks, if_neg hsame]
        refine (hprint w "[o]").quiet fun q => ?_
        rw [Proc.marks_call, Proc.marks_call, copyFile_marks]
    | dir ps' => exact hreplaced (by simp [Obj.stat])
    | symlink target => exact hreplaced (by simp [Obj.stat])
    | other => exact hreplaced (by simp [Obj.stat])

end

/-- What is asked of `sync_directories`, for trees up to a depth. -/
def Reports (sync : Path → Path → Proc → Except Stop Proc) (fuel : Nat) : Prop :=
  ∀ src dst w, w.fs.kind src = some .dir → w.fs.kind dst = some .dir → Apart src dst → Shallow w.fs src fuel →
    Shallow w.fs dst fuel →
    ∃ w', sync src dst w = .ok w' ∧ Prints dst (syncReport w.fs src dst) w w' ∧ Spares w.fs w'.fs src dst

/-- On a directory made in the place of something that is not one. -/
theorem Reports.fresh {rec : Path → Path → Proc → Except Stop Proc} {fuel : Nat} (hrec : Reports rec fuel)
    {perm : BitVec 12} (hs : fs.kind src = some .dir) (hap : Apart src dst) (hsh : Shallow fs src fuel)
    (hd : fs.kind dst ≠ some .dir) (hw : SetAt dst (some (.dir perm)) fs w.fs) :
    ∃ w', rec src dst w = .ok w' ∧ Prints dst (syncReport fs src dst) w w' := by
  have hsame : SameBelow src fs w.fs := hw.sameOff.below hap
  have hbelow : ∀ q, q ≠ [] → w.fs.get (q ++ dst) = fs.get (q ++ dst) := fun q hq => hw.get_ne (by simp [hq])
  have hsh' : Shallow w.fs dst fuel := by
    intro q hq
    by_cases hq' : q = []
    · rw [hq']
      exact hsh.pos hs
    · rw [FS.kind, hbelow q hq', fs.get_below_none hd q hq'] at hq
      exact absurd rfl hq
  obtain ⟨w', hw', hprints, -⟩ := hrec src dst w (hsame.kind_self.trans hs) (kind_of_get hw.get_self) hap (hsh.congr hsame) hsh'
  exact ⟨w', hw', hprints.congr (syncReport_congr hsame hbelow)⟩

/-- A round of the first loop. -/
theorem syncEntry_reports (env : Env) {rec : Path → Path → Proc → Except Stop Proc} {fuel : Nat} (hrec : Reports rec fuel)
    {v : Vars} (hs : v.w.fs.kind src = some .dir) (hd : v.w.fs.kind dst = some .dir) (hap : Apart (n :: src) (n :: dst))
    (hshs : Shallow v.w.fs (n :: src) fuel) (hshd : Shallow v.w.fs (n :: dst) fuel) (hn : v.w.fs.get (n :: src) ≠ none) :
    ∃ v', syncEntry env rec src dst n v = .ok v' ∧
      Prints (n :: dst) (entryReport v.w.fs (n :: src) (n :: dst)) v.w v'.w ∧ Spares v.w.fs v'.w.fs (n :: src) (n :: dst) := by
  obtain ⟨o, ho⟩ := Option.ne_none_iff_exists'.1 hn
  have hk : v.w.fs.kind (n :: src) = some o.kind := kind_of_get ho
  have hst := statOf_lstat (n := n) hd { v.dstStat with kind := none, perm := 0 } rfl
  unfold syncEntry
  simp only [lstat_entry hs, ho, Option.map_some, Option.getD_some]
  generalize (v.w.fs.lstat (n :: dst)).getD _ = dstStat at hst ⊢
  cases o with
  | symlink | other =>
    rw [if_neg (by simp [Obj.stat]), if_neg (by simp [Obj.stat])]
    refine ⟨_, rfl, (Prints.silent fun _ => rfl).congr fun q => ?_, .refl⟩
    rw [entryReport, syncReport_leaf (by simp [hk, Obj.kind]), ho, List.append_nil]
    rfl
  | reg content ms ps =>
    rw [if_pos (by rfl)]
    refine ⟨_, rfl, (syncReg_prints rfl hst).congr fun q => ?_, ?_⟩
    · rw [entryReport, syncReport_leaf (by simp [hk, Obj.kind]), ho, List.append_nil]
    · intro q content₁ content' mtime perm perm' hsrc hdst hlen
      by_cases hq : q = []
      · subst hq
        rw [List.nil_append] at hsrc hdst ⊢
        cases ho.symm.trans hsrc
        rw [hdst] at hst
        obtain rfl : dstStat = _ := hst
        rw [syncReg, if_pos (by rfl), if_pos ⟨hlen, rfl⟩]
      · rw [v.w.fs.get_below_none (by simp [hk, Obj.kind]) q hq] at hsrc
        cases hsrc
  | dir ps =>
    rw [if_neg (by simp [Obj.stat]), if_pos (by rfl), hst.kind]
    split
    · next hdir =>
      obtain ⟨w', hw', hprints, hspares⟩ := hrec _ _ v.w hk hdir hap hshs hshd
      obtain ⟨perm, hperm⟩ := exists_dir hdir
      rw [hw']
      refine ⟨_, rfl, hprints.congr fun q => ?_, hspares⟩
      rw [entryReport, ho, hperm]
      cases q <;> rfl
    · next hdir =>
      split
      · next hnone =>
        have hget := (FS.kind_eq_none_iff _).1 hnone
        set w₁ := (v.w.print "[+]" (n :: dst)).call (FS.mkdir · (n :: dst) ((Obj.dir ps).stat.perm &&& ~~~env.umask))
        obtain ⟨w', hw', hprints⟩ := hrec.fresh (w := w₁) hk hap hshs hdir (setAt_mkdir hd hget _)
        rw [hw']
        refine ⟨_, rfl, ?_, .ofDir hk hdir⟩
        have hplus : Prints (n :: dst) (here ["[+]"]) v.w w₁ := (Prints.print v.w "[+]" (n :: dst)).quiet fun _ => rfl
        refine (hplus.trans hprints).congr fun q => ?_
        rw [entryReport, ho, hget]
        rfl
      · next hsome =>
        obtain ⟨o', ho'⟩ := Option.ne_none_iff_exists'.1 fun h => hsome ((FS.kind_eq_none_iff _).2 h)
        set w₁ := (v.w.print "[-]" (n :: dst)).call (FS.remove · (n :: dst))
        have hrm : SetAt (n :: dst) none v.w.fs w₁.fs := setAt_remove hd (names_eq_nil hdir)
        have hd₁ : w₁.fs.kind dst = some .dir := (hrm.sameOff.kind (not_cons_suffix n dst)).trans hd
        set w₂ := (w₁.print "[+]" (n :: dst)).call (FS.mkdir · (n :: dst) ((Obj.dir ps).stat.perm &&& ~~~env.umask))
        obtain ⟨w', hw', hprints⟩ := hrec.fresh (w := w₂) hk hap hshs hdir (hrm.trans (setAt_mkdir hd₁ hrm.get_self _))
        rw [hw']
        refine ⟨_, rfl, ?_, .ofDir hk hdir⟩
        have hminus : Prints (n :: dst) (here ["[-]"]) v.w w₁ := (Prints.print v.w "[-]" (n :: dst)).quiet fun _ => rfl
        have hplus : Prints (n :: dst) (here ["[+]"]) w₁ w₂ := (Prints.print w₁ "[+]" (n :: dst)).quiet fun _ => rfl
        refine ((hminus.trans hplus).trans hprints).congr fun q => ?_
        rw [Prints.here_append, entryReport, ho, ho']
        cases o' with
        | dir perm => exact absurd (kind_of_get ho') hdir
        | reg | symlink | other => rfl

/-- `eachEntry_source`, with what the rounds print. -/
theorem eachEntry_printed (env : Env) {P : FS → FS → Path → Path → Prop} (hP : Local P) (f : Name → Vars → Except Stop Vars)
    (v₀ : Vars) (hap : Apart src dst) (report : Name → Path → List String)
    (round : ∀ n v, v.w.fs.get (n :: src) ≠ none → SameBelow src v₀.w.fs v.w.fs → v.w.fs.get dst = v₀.w.fs.get dst →
      SameBelow (n :: dst) v₀.w.fs v.w.fs →
      ∃ v', f n v = .ok v' ∧ SameOff (n :: dst) v.w.fs v'.w.fs ∧ P v.w.fs v'.w.fs (n :: src) (n :: dst) ∧
        Prints (n :: dst) (report n) v.w v'.w) :
    ∃ v done, eachEntry f (env.readdir v₀.w.fs v₀.w.fs src) v₀ = .ok v ∧ Handling P src dst v₀.w.fs v.w.fs done ∧
      (∀ n, n ∈ done ↔ v₀.w.fs.get (n :: src) ≠ none) ∧ Printed report dst v₀.w v.w done := by
  obtain ⟨v, done, hv, ⟨h, hprinted⟩, hdone⟩ := eachEntry_rule f (env.readdir v₀.w.fs v₀.w.fs src) v₀
    (fun done v => Handling P src dst v₀.w.fs v.w.fs done ∧ Printed report dst v₀.w v.w done)
    ⟨.start, .start fun _ => rfl⟩ (by
      rintro n done v hlisted hfresh ⟨h, hprinted⟩
      have hthere := env.mem_readdir.1 hlisted
      have hn := hfresh (env.listed _ _ _ _ hthere rfl)
      have hsame := h.off.below hap
      obtain ⟨v', hv', hoff, hround, hprints⟩ := round n v (by rwa [(hsame.entry n).get]) hsame h.self (h.rest n hn)
      exact ⟨v', hv', h.step hP hap hn hoff hround, hprinted.step hn hprints⟩)
  exact ⟨v, done, hv, h, fun n => (hdone n).trans env.mem_readdir, hprinted⟩

/-- The second loop prints for what it deletes. -/
theorem deleteEntry_prints {fuel : Nat} {v v' : Vars} (hs : v.w.fs.kind src = some .dir)
    (hn : v.w.fs.get (n :: src) = none) (hv : deleteEntry (removeDirectory env fuel) src dst n v = .ok v') :
    Prints (n :: dst) (here ["[-]"]) v.w v'.w := by
  have hprint := Prints.print v.w "[-]" (n :: dst)
  simp only [deleteEntry, lstat_entry hs, hn, Option.map_none] at hv
  split at hv
  · obtain ⟨w, hw, hv⟩ := bind_eq_ok.1 hv
    cases hv
    exact hprint.quiet fun p => removeDirectory_marks fuel p _ _ _ hw
  · cases hv
    exact hprint.quiet fun _ => rfl

/-- The second loop leaves what the source has. -/
theorem deleteEntry_quiet {rmdir : Path → Proc → Except Stop Proc} {v v' : Vars} (hs : v.w.fs.kind src = some .dir)
    (hn : v.w.fs.get (n :: src) ≠ none) (hv : deleteEntry rmdir src dst n v = .ok v') : v'.w = v.w := by
  obtain ⟨o, ho⟩ := Option.ne_none_iff_exists'.1 hn
  simp only [deleteEntry, lstat_entry hs, ho, Option.map_some] at hv
  cases hv
  rfl

/-- What the second loop prints for an entry. -/
def goneReport (fs : FS) (src : Path) (n : Name) (q : Path) : List String :=
  if fs.get (n :: src) = none then here ["[-]"] q else []

/-- Both loops together. -/
theorem Printed.prints {w₁ : Proc} {done₁ done₂ : List Name} (hs : fs.kind src = some .dir)
    (h₁ : Printed (fun n => entryReport fs (n :: src) (n :: dst)) dst w w₁ done₁)
    (h₂ : Printed (goneReport fs src) dst w₁ w' done₂) (hdone₁ : ∀ n, n ∈ done₁ ↔ fs.get (n :: src) ≠ none)
    (hdone₂ : ∀ n, fs.get (n :: src) = none → (n ∈ done₂ ↔ fs.get (n :: dst) ≠ none)) :
    Prints dst (syncReport fs src dst) w w' where
  off p hp := (h₂.off p hp).trans (h₁.off p hp)
  below q := by
    rcases List.eq_nil_or_concat' q with rfl | ⟨q, n, rfl⟩
    · rw [List.nil_append, h₂.self, h₁.self, syncReport, List.append_nil]
    · rw [← List.append_cons, h₂.entry, h₁.entry, syncReport_entry hs, goneReport]
      by_cases hn : fs.get (n :: src) = none
      · have hleaf : fs.kind (n :: src) ≠ some .dir := fun hdir => fs.get_ne_none hdir hn
        rw [if_neg (mt (hdone₁ n).1 (not_not.2 hn)), if_pos hn, entryReport, syncReport_leaf hleaf, hn, List.append_nil,
          List.append_nil]
        cases hd : fs.get (n :: dst) with
        | none =>
          rw [if_neg (mt (hdone₂ n hn).1 (not_not.2 hd))]
          cases q <;> rfl
        | some o =>
          rw [if_pos ((hdone₂ n hn).2 (by simp [hd]))]
          rfl
      · rw [if_pos ((hdone₁ n).2 hn), if_neg hn, ite_self, List.append_nil]

/-- By induction on the depth the trees have. -/
theorem syncDirectories_reports (env : Env) : ∀ fuel, Reports (syncDirectories env fuel) fuel := by
  intro fuel
  induction fuel with
  | zero => exact fun src dst w hs _ _ hsh _ => absurd (hsh.pos hs) (lt_irrefl 0)
  | succ fuel ih =>
    intro src dst w hs hd hap hshs hshd
    obtain ⟨v₁, done₁, hv₁, h₁, hdone₁, hprinted₁⟩ := eachEntry_printed env Spares.isLocal
      (syncEntry env (syncDirectories env fuel) src dst)
      ⟨(w.opened (some src)).opened (some dst), env.garbage w.fs src, env.garbage w.fs dst⟩ hap
      (fun n => entryReport w.fs (n :: src) (n :: dst)) (by
        intro n v hn hsame hself hrest
        simp only [Proc.opened_fs] at hsame hself hrest
        have hs' := hsame.kind_self.trans hs
        have hd' : v.w.fs.kind dst = some .dir := by rw [FS.kind, hself, ← FS.kind, hd]
        have hap' : Apart (n :: src) (n :: dst) := ((hap.entry n).symm.entry n).symm
        have hshs' := (hshs.entry n).congr (hsame.entry n)
        have hshd' := (hshd.entry n).congr hrest
        obtain ⟨v', hv', hoff, -⟩ := syncEntry_spec env (syncDirectories_writes env fuel) hs' hd' hap' hshs' hshd' hn
        obtain ⟨v'', hv'', hprints, hspares⟩ := syncEntry_reports env ih hs' hd' hap' hshs' hshd' hn
        cases hv'.symm.trans hv''
        refine ⟨v', hv', hoff, hspares, hprints.congr fun q => ?_⟩
        rw [entryReport, entryReport, (hsame.entry n).get, hrest.get,
          syncReport_congr (hsame.entry n) fun q _ => hrest q])
    simp only [Proc.opened_fs] at hv₁ h₁ hdone₁
    have hd₁ : v₁.w.fs.kind dst = some .dir := by rw [FS.kind, h₁.self, ← FS.kind, hd]
    obtain ⟨v₂, done₂, hv₂, ⟨h₂, hprinted₂⟩, hdone₂⟩ := eachEntry_rule
      (deleteEntry (removeDirectory env fuel) src dst) (env.readdir w.fs v₁.w.fs dst) v₁
      (fun done v => Clearing (fun n => w.fs.get (n :: src) ≠ none) dst v₁.w.fs v.w.fs done ∧
        Printed (goneReport w.fs src) dst v₁.w v.w done)
      ⟨.start hd₁, .start fun _ => rfl⟩ (by
        rintro n done v hlisted hfresh ⟨h, hprinted⟩
        have hsame := (h₁.off.trans h.off).below hap
        have hsrc : v.w.fs.kind src = some .dir := hsame.kind_self.trans hs
        by_cases hgone : w.fs.get (n :: src) = none
        · have hrest := h₁.rest n fun hn => (hdone₁ n).1 hn hgone
          have hthere : w.fs.get (n :: dst) ≠ none := by
            rcases env.there _ _ _ _ hlisted with hthere | hthere
            · exact hthere
            · rwa [hrest.get] at hthere
          have hn := hfresh (env.listed _ _ _ _ hthere hrest.get)
          have hrest' := hrest.trans (h.rest n (.inl hn))
          have hnone : v.w.fs.get (n :: src) = none := by rwa [(hsame.entry n).get]
          obtain ⟨v', hv', hoff, hdel⟩ := deleteEntry_gone (removeDirectory_spec env fuel) hsrc h.dir hnone
            (by rwa [hrest'.get]) ((hshd.entry n).congr hrest')
          refine ⟨v', hv', h.remove (not_not.2 hgone) hoff hdel, hprinted.step hn ?_⟩
          refine (deleteEntry_prints hsrc hnone hv').congr fun q => ?_
          rw [goneReport, if_pos hgone]
        · have hkeep : v.w.fs.get (n :: src) ≠ none := by rwa [(hsame.entry n).get]
          obtain ⟨v', hv', hfs⟩ : ∃ v', deleteEntry (removeDirectory env fuel) src dst n v = .ok v' ∧ v'.w.fs = v.w.fs :=
            deleteEntry_kept hsrc hkeep
          have hquiet := deleteEntry_quiet hsrc hkeep hv'
          refine ⟨v', hv', hfs ▸ h.skip hgone, hprinted.skip (fun q => ?_) fun p => by rw [hquiet]⟩
          rw [goneReport, if_neg hgone])
    have hlisted₂ : ∀ n, w.fs.get (n :: src) = none → (n ∈ done₂ ↔ w.fs.get (n :: dst) ≠ none) := by
      intro n hn
      have hrest := (h₁.rest n fun hn' => (hdone₁ n).1 hn' hn).get
      rw [hdone₂]
      constructor
      · intro hlisted
        rcases env.there _ _ _ _ hlisted with hthere | hthere
        · exact hthere
        · rwa [hrest] at hthere
      · exact fun hthere => env.mem_readdir_of_same hthere hrest
    refine ⟨(v₂.w.closed (some src)).closed (some dst), ?_, ?_, ?_⟩
    · simp only [syncDirectories, opendir_dir hs, opendir_dir hd, Proc.opened_fs, hv₁]
      change (eachEntry (deleteEntry (removeDirectory env fuel) src dst) (env.readdir w.fs v₁.w.fs dst) v₁ >>= _) = _
      rw [hv₂]
      rfl
    · have hboth := hprinted₁.prints hs hprinted₂ hdone₁ hlisted₂
      exact (Prints.after (fun p => by simp) hboth).quiet fun p => by simp
    · rw [Proc.closed_fs, Proc.closed_fs]
      intro q content content' mtime perm perm' hsrc hdst hlen
      rcases List.eq_nil_or_concat' q with rfl | ⟨q, n, rfl⟩
      · rw [List.nil_append] at hsrc
        rw [FS.kind, hsrc] at hs
        cases hs
      · rw [← List.append_cons] at hsrc hdst ⊢
        have hn : w.fs.get (n :: src) ≠ none := fun hn => by
          rw [(FS.kind_eq_none_iff _).1 (FS.kind_append_none _ hn q)] at hsrc
          cases hsrc
        have hspares := Spares.isLocal.after (h₁.handled n ((hdone₁ n).2 hn)) (h₂.rest n (.inr hn))
        exact hspares q content content' mtime perm perm' hsrc hdst hlen

/-! ## The second pass -/

/-- What the round of an entry prints (`:211-226`). -/
def changeMarks : Option Obj → Option Obj → List String
  | some (.reg _ mtime perm), some (.reg _ mtime' perm') =>
    (if mtime ≠ mtime' then ["[t]"] else []) ++ if perm ≠ perm' then ["[p]"] else []
  | _, _ => []

def changeReport (fs : FS) (src dst q : Path) : List String := changeMarks (fs.get (q ++ src)) (fs.get (q ++ dst))

theorem changeMarks_of_ne {o o' : Option Obj} (h : ¬ (o.map Obj.kind = some .reg ∧ o'.map Obj.kind = some .reg)) :
    changeMarks o o' = [] := by
  unfold changeMarks
  split
  · exact absurd ⟨rfl, rfl⟩ h
  · rfl

theorem changeReport_congr (hs : SameBelow src fs fs') (hd : SameBelow dst fs fs') (q : Path) :
    changeReport fs' src dst q = changeReport fs src dst q := by
  rw [changeReport, changeReport, hs q, hd q]

/-- Where not both are directories only the objects themselves can be files. -/
theorem changeReport_leaf (h : ¬ (fs.kind src = some .dir ∧ fs.kind dst = some .dir)) (q : Path) :
    changeReport fs src dst q = here (changeMarks (fs.get src) (fs.get dst)) q := by
  cases q with
  | nil => rfl
  | cons m q =>
    refine changeMarks_of_ne ?_
    rintro ⟨hsrc, hdst⟩
    refine h ⟨?_, ?_⟩
    · by_contra hs
      rw [fs.get_below_none hs (m :: q) (List.cons_ne_nil m q)] at hsrc
      cases hsrc
    · by_contra hd
      rw [fs.get_below_none hd (m :: q) (List.cons_ne_nil m q)] at hdst
      cases hdst

/-- What is asked of `change_timestamps_and_perms`, for trees up to a depth. -/
def ReportsChanges (change : Path → Path → Proc → Except Stop Proc) (fuel : Nat) : Prop :=
  ∀ src dst w, w.fs.kind src = some .dir → w.fs.kind dst = some .dir → Apart src dst → Covers w.fs src dst →
    Shallow w.fs src fuel → ∃ w', change src dst w = .ok w' ∧ Prints dst (changeReport w.fs src dst) w w'

theorem changeEntry_reports {rec : Path → Path → Proc → Except Stop Proc} {fuel : Nat} (hrec : ReportsChanges rec fuel)
    {v : Vars} (hs : v.w.fs.kind src = some .dir) (hd : v.w.fs.kind dst = some .dir) (hap : Apart (n :: src) (n :: dst))
    (hcov : v.w.fs.kind (n :: src) = some .reg ∨ v.w.fs.kind (n :: src) = some .dir → v.w.fs.get (n :: dst) ≠ none)
    (hcov' : Covers v.w.fs (n :: src) (n :: dst)) (hsh : Shallow v.w.fs (n :: src) fuel) (hn : v.w.fs.get (n :: src) ≠ none) :
    ∃ v', changeEntry rec src dst n v = .ok v' ∧
      Prints (n :: dst) (changeReport v.w.fs (n :: src) (n :: dst)) v.w v'.w := by
  obtain ⟨o, ho⟩ := Option.ne_none_iff_exists'.1 hn
  have hk : v.w.fs.kind (n :: src) = some o.kind := kind_of_get ho
  have hdk := lstat_getD_kind (n := n) hd v.dstStat
  have hsilent : ¬ (v.w.fs.kind (n :: src) = some .dir ∧ v.w.fs.kind (n :: dst) = some .dir) →
      ¬ (v.w.fs.kind (n :: src) = some .reg ∧ v.w.fs.kind (n :: dst) = some .reg) →
      Prints (n :: dst) (changeReport v.w.fs (n :: src) (n :: dst)) v.w v.w := by
    intro hdir hreg
    refine (Prints.silent fun _ => rfl).congr fun q => ?_
    rw [changeReport_leaf hdir, changeMarks_of_ne hreg]
  unfold changeEntry
  simp only [lstat_entry hs, ho, Option.map_some, Option.getD_some]
  cases o with
  | symlink | other =>
    rw [if_neg (by simp [Obj.stat]), if_neg (by simp [Obj.stat])]
    exact ⟨_, rfl, hsilent (by simp [hk, Obj.kind]) (by simp [hk, Obj.kind])⟩
  | reg content mtime perm =>
    obtain ⟨o', ho'⟩ := Option.ne_none_iff_exists'.1 (hcov (.inl hk))
    have hk' : v.w.fs.kind (n :: dst) = some o'.kind := kind_of_get ho'
    simp only [lstat_entry hd, ho', Option.map_some, Option.getD_some]
    rw [if_pos (by rfl)]
    cases o' with
    | symlink | other | dir =>
      rw [if_neg (by simp [Obj.stat])]
      exact ⟨_, rfl, hsilent (by simp [hk, Obj.kind]) (by simp [hk', Obj.kind])⟩
    | reg content' mtime' perm' =>
      rw [if_pos (by rfl)]
      refine ⟨_, rfl, ?_⟩
      simp only [Obj.stat]
      have hmark : ∀ (w : Proc) (P : Prop) [Decidable P] (mark : String) (f : FS → FS),
          Prints (n :: dst) (here (if P then [mark] else [])) w (if P then (w.print mark (n :: dst)).call f else w) := by
        intro w P _ mark f
        split
        · exact (Prints.print w mark (n :: dst)).quiet fun _ => rfl
        · exact .silent fun _ => rfl
      refine ((hmark v.w (mtime ≠ mtime') "[t]" (FS.utime · (n :: dst) mtime)).trans
        (hmark _ (perm ≠ perm') "[p]" (FS.chmod · (n :: dst) perm))).congr fun q => ?_
      rw [Prints.here_append, changeReport_leaf (by simp [hk, Obj.kind]), ho, ho', changeMarks]
  | dir perm =>
    rw [if_neg (by simp [Obj.stat]), hdk (.inl (hcov (.inr hk)))]
    by_cases hdir : v.w.fs.kind (n :: dst) = some .dir
    · rw [if_pos ⟨by rfl, hdir⟩]
      obtain ⟨w', hw', hprints⟩ := hrec _ _ v.w hk hdir hap hcov' hsh
      rw [hw']
      exact ⟨_, rfl, hprints⟩
    · rw [if_neg fun h => hdir h.2]
      exact ⟨_, rfl, hsilent (fun h => hdir h.2) (by simp [hk, Obj.kind])⟩

theorem changeTimestampsAndPerms_reports (env : Env) : ∀ fuel, ReportsChanges (changeTimestampsAndPerms env fuel) fuel := by
  intro fuel
  induction fuel with
  | zero => exact fun src dst w hs _ _ _ hsh => absurd (hsh.pos hs) (lt_irrefl 0)
  | succ fuel ih =>
    intro src dst w hs hd hap hcov hsh
    obtain ⟨v, done, hv, h, hdone, hprinted⟩ := eachEntry_printed env Stamped.isLocal
      (changeEntry (changeTimestampsAndPerms env fuel) src dst)
      ⟨(w.opened (some src)).opened (some dst), env.garbage w.fs src, env.garbage w.fs dst⟩ hap
      (fun n => changeReport w.fs (n :: src) (n :: dst)) (by
        intro n v hn hsame hself hrest
        simp only [Proc.opened_fs] at hsame hself hrest
        have hn' := hsame.entry n
        have hs' := hsame.kind_self.trans hs
        have hd' : v.w.fs.kind dst = some .dir := by rw [FS.kind, hself, ← FS.kind, hd]
        have hcov' : v.w.fs.kind (n :: src) = some .reg ∨ v.w.fs.kind (n :: src) = some .dir → v.w.fs.get (n :: dst) ≠ none := by
          rw [hn'.kind_self, hrest.get]
          exact hcov [] n hd
        have hcov'' := (hcov.entry n).congr hn' hrest
        have hsh' := (hsh.entry n).congr hn'
        obtain ⟨v', hv', hoff, hstamped⟩ := changeEntry_spec (changeTimestampsAndPerms_spec env fuel) hs' hd' hap hcov' hcov''
          hsh' hn
        obtain ⟨v'', hv'', hprints⟩ := changeEntry_reports ih hs' hd' ((hap.entry n).symm.entry n).symm hcov' hcov'' hsh' hn
        cases hv'.symm.trans hv''
        exact ⟨v', hv', hoff, hstamped, hprints.congr (changeReport_congr hn' hrest)⟩)
    simp only [Proc.opened_fs] at hv h hdone
    refine ⟨v.w, ?_, ⟨fun p hp => ?_, fun q => ?_⟩⟩
    · simp only [changeTimestampsAndPerms, opendir_dir hs, opendir_dir hd, Proc.opened_fs, hv]
      rfl
    · simpa using hprinted.off p hp
    · rcases List.eq_nil_or_concat' q with rfl | ⟨q, n, rfl⟩
      · have hself := hprinted.self
        rw [Proc.marks_opened, Proc.marks_opened] at hself
        rw [List.nil_append, hself, changeReport, changeMarks_of_ne, List.append_nil]
        rintro ⟨hreg, -⟩
        rw [List.nil_append, ← FS.kind, hs] at hreg
        cases hreg
      · have hentry := hprinted.entry n q
        rw [Proc.marks_opened, Proc.marks_opened] at hentry
        have hreport : changeReport w.fs src dst (q ++ [n]) = changeReport w.fs (n :: src) (n :: dst) q := by
          rw [changeReport, changeReport, ← List.append_cons, ← List.append_cons]
        rw [← List.append_cons, hentry, hreport]
        by_cases hn : n ∈ done
        · rw [if_pos hn]
        · have hnone : w.fs.get (n :: src) = none := not_not.1 fun hn' => hn ((hdone n).2 hn')
          rw [if_neg hn, changeReport, (FS.kind_eq_none_iff _).1 (FS.kind_append_none _ hnone q)]
          rfl

/-! ## A run -/

/-- The destination stays a directory. -/
theorem Written.kind_self {umask : BitVec 12} (h : Written umask fs fs' src dst) (hs : fs.kind src = some .dir)
    (hd : fs.kind dst = some .dir) : fs'.kind dst = some .dir := by
  obtain ⟨perm, hperm⟩ := exists_dir hs
  obtain ⟨perm', hperm'⟩ := exists_dir hd
  have hkept : ¬ Kept fs src dst [] := by
    rintro ⟨r, hr, hstuck⟩
    rw [List.suffix_nil.1 hr] at hstuck
    exact not_stuck_of_dir hs hstuck
  have hresult := (h []).2 hkept
  rw [List.nil_append, List.nil_append, hperm, hperm'] at hresult
  rw [FS.kind, ← stamp_kind (some (.dir perm)), hresult]
  rfl

theorem main_reports (env : Env) (hs : w.fs.kind src = some .dir) (hd : w.fs.kind dst = some .dir) (hap : Apart src dst)
    {fuel : Nat} (hshs : Shallow w.fs src fuel) (hshd : Shallow w.fs dst fuel) :
    ∃ w₁ w', syncDirectories env fuel src dst w = .ok w₁ ∧ main env fuel src dst w = .ok w' ∧
      Prints dst (fun q => syncReport w.fs src dst q ++ changeReport w₁.fs src dst q) w w' ∧
      SameBelow src w.fs w₁.fs ∧ Spares w.fs w₁.fs src dst := by
  obtain ⟨w₁, hw₁, hoff, hwritten⟩ := syncDirectories_writes env fuel src dst w hs hd hap hshs hshd
  obtain ⟨w₁', hw₁', hprints₁, hspares⟩ := syncDirectories_reports env fuel src dst w hs hd hap hshs hshd
  cases hw₁.symm.trans hw₁'
  have hsame := hoff.below hap
  obtain ⟨w', hw', hprints⟩ := changeTimestampsAndPerms_reports env fuel src dst w₁ (hsame.kind_self.trans hs)
    (hwritten.kind_self hs hd) hap (hwritten.covers hsame) (hshs.congr hsame)
  refine ⟨w₁, w', hw₁, ?_, hprints₁.trans hprints, hsame, hspares⟩
  rw [main, hw₁]
  exact hw'

/-- **The report is exact.** Whatever the order of the directories: a run prints for every path below the destination first
what the two trees call for there and then what is left to change behind the first pass, and nothing for any other path. -/
theorem report_exact (env : Env) (w : Proc) (src dst : Path) (hs : w.fs.kind src = some .dir)
    (hd : w.fs.kind dst = some .dir) (hap : Apart src dst) :
    ∃ N, ∀ fuel ≥ N, ∃ w₁ w', syncDirectories env fuel src dst w = .ok w₁ ∧ main env fuel src dst w = .ok w' ∧
      (∀ p, ¬ dst <:+ p → w'.marks p = w.marks p) ∧
      ∀ q, w'.marks (q ++ dst) = w.marks (q ++ dst) ++ (syncReport w.fs src dst q ++ changeReport w₁.fs src dst q) := by
  refine ⟨w.fs.depth + 1, fun fuel hfuel => ?_⟩
  obtain ⟨w₁, w', hw₁, hw', hprints, -⟩ := main_reports env hs hd hap (.ofDepth w.fs src hfuel) (.ofDepth w.fs dst hfuel)
  exact ⟨w₁, w', hw₁, hw', hprints.off, hprints.below⟩

/-- A file to overwrite, a directory in the place of a link, a file of the destination alone. -/
theorem report_exact_three :
    let w : Proc := ⟨.ofList [(["src"], .dir 0o755), (["a", "src"], .reg [104, 105] 7 0o600), (["b", "src"], .dir 0o750),
      (["c", "b", "src"], .reg [] 8 0o644), (["dst"], .dir 0o755), (["a", "dst"], .reg [1] 7 0o644),
      (["b", "dst"], .symlink ["a"]), (["e", "dst"], .other)], []⟩
    syncReport w.fs ["src"] ["dst"] ["b"] = ["[-]", "[+]"] ∧
    ∃ N, ∀ fuel ≥ N, ∃ w₁ w', syncDirectories (.listing 0o022) fuel ["src"] ["dst"] w = .ok w₁ ∧
      main (.listing 0o022) fuel ["src"] ["dst"] w = .ok w' ∧ (∀ p, ¬ ["dst"] <:+ p → w'.marks p = w.marks p) ∧
      ∀ q, w'.marks (q ++ ["dst"]) = w.marks (q ++ ["dst"]) ++
        (syncReport w.fs ["src"] ["dst"] q ++ changeReport w₁.fs ["src"] ["dst"] q) := by
  intro w
  exact ⟨by decide +kernel, report_exact (.listing 0o022) w ["src"] ["dst"] (by decide +kernel) (by decide +kernel)
    ⟨by decide, by decide⟩⟩

end OsLab.A9
