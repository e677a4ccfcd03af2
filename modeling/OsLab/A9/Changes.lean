import OsLab.A9.Report

/-!
# What the report of `rsync.c` says

| result | says |
| --- | --- |
| `marked_of_changed` | what changes has a mark, or goes with a directory above it that has one |
| `changed_of_marked` | what has a mark changes, except where a directory with entries is in the place of a file (`:122`) |
| `reported_iff_changed` | both, for a run |
| `second_run_silent` | a second run prints nothing, up to the same exception |
-/

namespace OsLab.A9

open FileSys FS

variable {env : Env} {fs fs₁ fs' : FS} {src dst : Path} {n : Name} {q : Path} {umask : BitVec 12}

/-- What both passes print. -/
def fullReport (fs fs₁ : FS) (src dst q : Path) : List String := syncReport fs src dst q ++ changeReport fs₁ src dst q

/-- `remove` fails there, and yet both marks are printed. -/
def Blocks (fs : FS) (src dst q : Path) : Prop := fs.kind (q ++ src) = some .reg ∧ fs.names (q ++ dst) ≠ []

/-- An object of the source that a run copies, or none: its marks say whether the one of the destination changes. `mid` is
there behind the first pass. -/
theorem marks_iff {o old mid : Option Obj} (hk : ∀ k, o.map Obj.kind = some k → k = .reg ∨ k = .dir)
    (hspares : ∀ content content' mtime perm perm', o = some (.reg content mtime perm) →
      old = some (.reg content' mtime perm') → content.length = content'.length → mid = old) :
    syncMarks o old ++ changeMarks o mid ≠ [] ↔ result umask o old ≠ old := by
  match o, old with
  | none, none => simp [syncMarks, changeMarks, result]
  | none, some _ => simp [syncMarks, result]
  | some (.reg content mtime perm), some (.reg content' mtime' perm') =>
    by_cases hsame : content.length = content'.length ∧ mtime = mtime'
    · obtain ⟨hlen, rfl⟩ := hsame
      rw [hspares content content' mtime perm perm' rfl rfl hlen]
      simp [syncMarks, changeMarks, result, contentAfter, hlen]
    · have hne : ¬ (content = content' ∧ mtime = mtime' ∧ perm = perm') := by
        rintro ⟨rfl, rfl, -⟩
        exact hsame ⟨rfl, rfl⟩
      simp [syncMarks, result, contentAfter, hsame, hne]
  | some (.dir _), some (.dir _) => simp [syncMarks, changeMarks, result]
  | some (.reg ..), none | some (.dir _), none => simp [syncMarks, result]
  | some (.reg ..), some (.dir _) | some (.reg ..), some (.symlink _) | some (.reg ..), some .other =>
    simp [syncMarks, result]
  | some (.dir _), some (.reg ..) | some (.dir _), some (.symlink _) | some (.dir _), some .other =>
    simp [syncMarks, result]
  | some (.symlink _), _ | some .other, _ => simp [Obj.kind] at hk

/-- What a run does to the files: `fs₁` is behind the first pass. -/
structure Ran (umask : BitVec 12) (src dst : Path) (fs fs₁ fs' : FS) : Prop where
  source : fs.kind src = some .dir
  dest : fs.kind dst = some .dir
  same : SameBelow src fs fs₁
  spares : Spares fs fs₁ src dst
  updated : Updated umask fs fs' src dst

namespace Ran

/-- Something goes with the topmost directory above it that the source does not have. -/
theorem marked_of_gone (R : Ran umask src dst fs fs₁ fs') (hsrc : fs.get (q ++ src) = none) (hdst : fs.get (q ++ dst) ≠ none)
    (hkept : ¬ Kept fs src dst q) : ∃ r, r <:+ q ∧ syncReport fs src dst r ≠ [] := by
  induction q with
  | nil => exact absurd hsrc (fs.get_ne_none R.source)
  | cons n q ih =>
    have habove : fs.get (q ++ dst) ≠ none := fs.get_ne_none (fs.kind_parent hdst)
    by_cases hdir : fs.kind (q ++ src) = some .dir
    · obtain ⟨o, ho⟩ := Option.ne_none_iff_exists'.1 hdst
      rw [List.cons_append] at hsrc ho
      refine ⟨n :: q, List.suffix_refl _, ?_⟩
      rw [syncReport, if_pos hdir, hsrc, ho]
      simp [syncMarks]
    · by_cases hnone : fs.get (q ++ src) = none
      · obtain ⟨r, hr, hmarked⟩ := ih hnone habove fun h => hkept (h.below n)
        exact ⟨r, hr.trans (List.suffix_cons n q), hmarked⟩
      · -- something else is there in the source: the entry is kept
        obtain ⟨k, hk⟩ := Option.ne_none_iff_exists'.1 fun h => hnone (fs.kind_eq_none_iff.1 h)
        refine absurd ⟨q, List.suffix_cons n q, k, hk, ?_, fun _ => ⟨n, hdst⟩⟩ hkept
        rintro rfl
        exact hdir hk

/-- The marks of an entry of a directory of the source. -/
theorem fullReport_entry (R : Ran umask src dst fs fs₁ fs') (hdir : fs.kind (q ++ src) = some .dir) (n : Name) :
    fullReport fs fs₁ src dst (n :: q) =
      syncMarks (fs.get (n :: (q ++ src))) (fs.get (n :: (q ++ dst))) ++
        changeMarks (fs.get (n :: (q ++ src))) (fs₁.get (n :: (q ++ dst))) := by
  have hsame := R.same (n :: q)
  rw [List.cons_append] at hsame
  rw [fullReport, syncReport, if_pos hdir, changeReport, List.cons_append, List.cons_append, hsame]

theorem marks_entry_iff (R : Ran umask src dst fs fs₁ fs')
    (hk : ∀ k, fs.kind (n :: (q ++ src)) = some k → k = .reg ∨ k = .dir) :
    syncMarks (fs.get (n :: (q ++ src))) (fs.get (n :: (q ++ dst))) ++
        changeMarks (fs.get (n :: (q ++ src))) (fs₁.get (n :: (q ++ dst))) ≠ [] ↔
      result umask (fs.get (n :: (q ++ src))) (fs.get (n :: (q ++ dst))) ≠ fs.get (n :: (q ++ dst)) :=
  marks_iff hk fun content content' mtime perm perm' hsrc hdst hlen =>
    R.spares (n :: q) content content' mtime perm perm' hsrc hdst hlen

/-- What changes has a mark itself, or goes with a directory that has one. -/
theorem marked_of_changed (R : Ran umask src dst fs fs₁ fs') (hchanged : fs'.get (q ++ dst) ≠ fs.get (q ++ dst)) :
    ∃ r, r <:+ q ∧ fullReport fs fs₁ src dst r ≠ [] := by
  have hkept : ¬ Kept fs src dst q := fun h => hchanged ((R.updated q).1 h)
  have hnew := (R.updated q).2 hkept
  rw [hnew] at hchanged
  by_cases hsrc : fs.get (q ++ src) = none
  · have hdst : fs.get (q ++ dst) ≠ none := by
      intro hdst
      rw [hsrc, hdst] at hchanged
      exact hchanged rfl
    obtain ⟨r, hr, hmarked⟩ := R.marked_of_gone hsrc hdst hkept
    exact ⟨r, hr, fun h => hmarked (List.append_eq_nil_iff.1 h).1⟩
  · cases q with
    | nil =>
      obtain ⟨perm, hperm⟩ := exists_dir R.source
      obtain ⟨perm', hperm'⟩ := exists_dir R.dest
      rw [List.nil_append, List.nil_append, hperm, hperm'] at hchanged
      exact absurd rfl hchanged
    | cons n q =>
      rw [List.cons_append] at hsrc
      rw [List.cons_append, List.cons_append] at hchanged
      refine ⟨n :: q, List.suffix_refl _, ?_⟩
      rw [R.fullReport_entry (fs.kind_parent hsrc)]
      refine (R.marks_entry_iff fun k hk => ?_).2 hchanged
      by_contra hother
      rw [not_or] at hother
      exact hkept ⟨n :: q, List.suffix_refl _, k, hk, hother.2, fun h => absurd h hother.1⟩

/-- What has a mark changes, but for a directory that could not be removed. -/
theorem changed_of_marked (R : Ran umask src dst fs fs₁ fs') (hmarked : fullReport fs fs₁ src dst q ≠ [])
    (hblocks : ¬ Blocks fs src dst q) : fs'.get (q ++ dst) ≠ fs.get (q ++ dst) := by
  cases q with
  | nil =>
    have hsilent : ¬ (fs₁.kind src = some .reg ∧ fs₁.kind dst = some .reg) := by
      rw [R.same.kind_self, R.source]
      rintro ⟨hreg, -⟩
      cases hreg
    exact absurd (changeMarks_of_ne hsilent) hmarked
  | cons n q =>
    by_cases hdir : fs.kind (q ++ src) = some .dir
    · rw [R.fullReport_entry hdir] at hmarked
      have hk : ∀ k, fs.kind (n :: (q ++ src)) = some k → k = .reg ∨ k = .dir := by
        intro k hk
        obtain ⟨o, ho, rfl⟩ := Option.map_eq_some_iff.1 hk
        rw [ho] at hmarked
        cases o with
        | reg => exact .inl rfl
        | dir => exact .inr rfl
        | symlink | other => exact absurd rfl hmarked
      have hkept : ¬ Kept fs src dst (n :: q) := by
        rintro ⟨r, hr, hstuck⟩
        rcases List.suffix_cons_iff.1 hr with rfl | hr
        · obtain ⟨k, hk', hne, hreg⟩ := hstuck
          have hk'' : k = .reg := (hk k hk').resolve_right hne
          obtain ⟨m, hm⟩ := hreg hk''
          exact hblocks ⟨hk'' ▸ hk', List.ne_nil_of_mem (fs.mem_names.2 hm)⟩
        · -- nothing above a directory is stuck
          rcases Kept.cases ⟨r, hr, hstuck⟩ with hstuck | hnone
          · exact not_stuck_of_dir hdir hstuck
          · exact fs.get_ne_none hdir hnone
      rw [(R.updated (n :: q)).2 hkept]
      exact (R.marks_entry_iff hk).1 hmarked
    · have hnone : fs.get (n :: q ++ src) = none := by
        by_contra hthere
        exact hdir (fs.kind_parent hthere)
      rw [fullReport, syncReport, if_neg hdir, changeReport, R.same (n :: q), hnone] at hmarked
      exact absurd rfl hmarked

end Ran

theorem main_ran (env : Env) {w : Proc} (hs : w.fs.kind src = some .dir) (hd : w.fs.kind dst = some .dir) (hap : Apart src dst)
    {fuel : Nat} (hshs : Shallow w.fs src fuel) (hshd : Shallow w.fs dst fuel) :
    ∃ w' fs₁, main env fuel src dst w = .ok w' ∧ SameOff dst w.fs w'.fs ∧ Ran env.umask src dst w.fs fs₁ w'.fs ∧
      Prints dst (fullReport w.fs fs₁ src dst) w w' := by
  obtain ⟨w₁, w', -, hw', hprints, hsame, hspares⟩ := main_reports env hs hd hap hshs hshd
  obtain ⟨w'', hw'', hoff, hupdated⟩ := main_updated env hs hd hap hshs hshd
  cases hw'.symm.trans hw''
  exact ⟨w', w₁.fs, hw', hoff, ⟨hs, hd, hsame, hspares, hupdated⟩, hprints⟩

/-- **What is reported is what changes.** Whatever the order of the directories: what is at a path of the destination
changes only if the path has a mark or a directory above it has one, and what has a mark changes, but for a directory with
entries in the place of a file. -/
theorem reported_iff_changed (env : Env) (fs : FS) (src dst : Path) (hs : fs.kind src = some .dir)
    (hd : fs.kind dst = some .dir) (hap : Apart src dst) :
    ∃ N, ∀ fuel ≥ N, ∃ w', main env fuel src dst ⟨fs, []⟩ = .ok w' ∧ ∀ q,
      (w'.fs.get (q ++ dst) ≠ fs.get (q ++ dst) → ∃ r, r <:+ q ∧ w'.marks (r ++ dst) ≠ []) ∧
      (w'.marks (q ++ dst) ≠ [] →
        w'.fs.get (q ++ dst) ≠ fs.get (q ++ dst) ∨ fs.kind (q ++ src) = some .reg ∧ fs.names (q ++ dst) ≠ []) := by
  refine ⟨fs.depth + 1, fun fuel hfuel => ?_⟩
  obtain ⟨w', fs₁, hw', -, R, hprints⟩ := main_ran env (w := ⟨fs, []⟩) hs hd hap (.ofDepth fs src hfuel) (.ofDepth fs dst hfuel)
  have hmarks : ∀ q, w'.marks (q ++ dst) = fullReport fs fs₁ src dst q := hprints.below
  refine ⟨w', hw', fun q => ⟨fun hchanged => ?_, fun hmarked => ?_⟩⟩
  · obtain ⟨r, hr, hmarked⟩ := R.marked_of_changed hchanged
    exact ⟨r, hr, by rwa [hmarks]⟩
  · rw [hmarks] at hmarked
    by_cases hblocks : Blocks fs src dst q
    · exact .inr hblocks
    · exact .inl (R.changed_of_marked hmarked hblocks)

/-- Two directories are reported, a file that goes, and a directory that stays in the place of a file. -/
theorem reported_iff_changed_mixed :
    let fs : FS := .ofList [(["src"], .dir 0o755), (["a", "src"], .reg [104, 105] 7 0o600), (["b", "src"], .dir 0o750),
      (["c", "b", "src"], .dir 0o755), (["dst"], .dir 0o755), (["a", "dst"], .dir 0o755), (["x", "a", "dst"], .other),
      (["e", "dst"], .reg [] 3 0o644)]
    Blocks fs ["src"] ["dst"] ["a"] ∧ ∃ N, ∀ fuel ≥ N, ∃ w', main (.listing 0o022) fuel ["src"] ["dst"] ⟨fs, []⟩ = .ok w' ∧ ∀ q,
      (w'.fs.get (q ++ ["dst"]) ≠ fs.get (q ++ ["dst"]) → ∃ r, r <:+ q ∧ w'.marks (r ++ ["dst"]) ≠ []) ∧
      (w'.marks (q ++ ["dst"]) ≠ [] → w'.fs.get (q ++ ["dst"]) ≠ fs.get (q ++ ["dst"]) ∨
        fs.kind (q ++ ["src"]) = some .reg ∧ fs.names (q ++ ["dst"]) ≠ []) := by
  intro fs
  exact ⟨⟨by decide +kernel, by decide +kernel⟩, reported_iff_changed (.listing 0o022) fs ["src"] ["dst"] (by decide +kernel)
    (by decide +kernel) ⟨by decide, by decide⟩⟩

/-! ## A second run -/

namespace Ran

theorem kind_self (R : Ran umask src dst fs fs₁ fs') : fs'.kind dst = some .dir := by
  have hself := R.updated []
  rw [List.nil_append, List.nil_append] at hself
  by_cases hkept : Kept fs src dst []
  · rw [FS.kind, hself.1 hkept, ← FS.kind, R.dest]
  · obtain ⟨perm, hperm⟩ := exists_dir R.source
    obtain ⟨perm', hperm'⟩ := exists_dir R.dest
    rw [FS.kind, hself.2 hkept, hperm, hperm']
    rfl

/-- A directory that is in the place of a file behind a run has been there with its entries. -/
theorem blocks_of_blocks (R : Ran umask src dst fs fs₁ fs') (hsame : SameBelow src fs fs') (h : Blocks fs' src dst q) :
    Blocks fs src dst q := by
  obtain ⟨hreg, hnames⟩ := h
  rw [hsame.kind] at hreg
  obtain ⟨m, hm⟩ := List.exists_mem_of_ne_nil _ hnames
  have hthere := fs'.mem_names.1 hm
  have hsrc : fs.get (m :: (q ++ src)) = none := by
    by_contra hne
    have hdir := fs.kind_parent hne
    rw [hreg] at hdir
    cases hdir
  have hkept : Kept fs src dst (m :: q) := by
    by_contra hkept
    have hnew := (R.updated (m :: q)).2 hkept
    rw [List.cons_append, List.cons_append, hsrc] at hnew
    exact hthere hnew
  have hold := (R.updated (m :: q)).1 hkept
  rw [List.cons_append] at hold
  rw [hold] at hthere
  exact ⟨hreg, List.ne_nil_of_mem (fs.mem_names.2 hthere)⟩

end Ran

/-- **A second run is silent**, but for a directory with entries in the place of a file. It may list its streams in another
order, at another time and with another umask. -/
theorem second_run_silent (env env' : Env) (w : Proc) (src dst : Path) (hs : w.fs.kind src = some .dir)
    (hd : w.fs.kind dst = some .dir) (hap : Apart src dst) :
    ∃ N, ∀ fuel ≥ N, ∀ fuel' ≥ N, ∃ w₁ w₂, main env fuel src dst w = .ok w₁ ∧ main env' fuel' src dst ⟨w₁.fs, []⟩ = .ok w₂ ∧
      ∀ p, w₂.marks p ≠ [] → ∃ q, p = q ++ dst ∧ w.fs.kind (q ++ src) = some .reg ∧ w.fs.names (q ++ dst) ≠ [] := by
  refine ⟨w.fs.depth + 1, fun fuel hfuel fuel' hfuel' => ?_⟩
  obtain ⟨w₁, fs₁, hw₁, hoff₁, R₁, -⟩ := main_ran env hs hd hap (.ofDepth w.fs src hfuel) (.ofDepth w.fs dst hfuel)
  have hsame := hoff₁.below hap
  have hshs : Shallow w.fs src fuel' := .ofDepth w.fs src hfuel'
  obtain ⟨w₂, fs₂, hw₂, -, R₂, hprints⟩ := main_ran env' (w := ⟨w₁.fs, []⟩) (hsame.kind_self.trans hs) R₁.kind_self hap
    (hshs.congr hsame) (R₁.updated.shallow hshs (.ofDepth w.fs dst hfuel'))
  refine ⟨w₁, w₂, hw₁, hw₂, fun p hmarked => ?_⟩
  by_cases hbelow : dst <:+ p
  · obtain ⟨q, rfl⟩ := hbelow
    have hreport : w₂.marks (q ++ dst) = fullReport w₁.fs fs₂ src dst q := hprints.below q
    rw [hreport] at hmarked
    have hunchanged : w₂.fs.get (q ++ dst) = w₁.fs.get (q ++ dst) := by
      by_cases hkept : Kept w.fs src dst q
      · exact (R₂.updated q).1 ((R₁.updated.kept_iff hsame).2 hkept)
      · rw [(R₂.updated q).2 fun hkept' => hkept ((R₁.updated.kept_iff hsame).1 hkept'), hsame q, (R₁.updated q).2 hkept,
          result_result]
    have hblocks : Blocks w₁.fs src dst q := by
      by_contra hblocks
      exact R₂.changed_of_marked hmarked hblocks hunchanged
    exact ⟨q, rfl, R₁.blocks_of_blocks hsame hblocks⟩
  · exact absurd (hprints.off p hbelow) hmarked

theorem second_run_silent_mixed :
    let w : Proc := ⟨.ofList [(["src"], .dir 0o755), (["a", "src"], .reg [104, 105] 7 0o600), (["b", "src"], .dir 0o750),
      (["dst"], .dir 0o755), (["a", "dst"], .dir 0o755), (["x", "a", "dst"], .other), (["e", "dst"], .reg [] 3 0o644)], []⟩
    ∃ N, ∀ fuel ≥ N, ∀ fuel' ≥ N, ∃ w₁ w₂, main (.listing 0o022) fuel ["src"] ["dst"] w = .ok w₁ ∧
      main (.listing 0o077) fuel' ["src"] ["dst"] ⟨w₁.fs, []⟩ = .ok w₂ ∧ ∀ p, w₂.marks p ≠ [] →
        ∃ q, p = q ++ ["dst"] ∧ w.fs.kind (q ++ ["src"]) = some .reg ∧ w.fs.names (q ++ ["dst"]) ≠ [] := by
  intro w
  exact second_run_silent (.listing 0o022) (.listing 0o077) w ["src"] ["dst"] (by decide +kernel) (by decide +kernel)
    ⟨by decide, by decide⟩

end OsLab.A9
