import OsLab.A9.Result

/-!
# The destination mirrors the source (`A9/rsync.c`)

`sync_directories` is to leave the destination with the paths and types of the source. The first loop
handles every entry of the source, the second removes what the source does not have. The one thing the
first loop cannot replace is a directory with entries in the place of a regular file: `remove` fails
with `ENOTEMPTY` (`:122`), where the second loop would have called `remove_directory` (`:180`), and the `open`
after it fails with `EISDIR`. `Synced` says what a run leaves in both cases; `structure_mirror` has the
condition for the trees to be alike.
-/

namespace OsLab.A9

open FileSys FS

variable {umask : BitVec 12} {fs fs' : FS} {src dst : Path} {q : Path}

/-- The source is made of regular files and directories. -/
def Plain (fs : FS) (src : Path) : Prop := ∀ q k, fs.kind (q ++ src) = some k → k = .reg ∨ k = .dir

/-- At `q`, or above it, the source is a regular file and the destination a directory with entries. -/
def Blocked (fs : FS) (src dst q : Path) : Prop :=
  ∃ r, r <:+ q ∧ fs.kind (r ++ src) = some .reg ∧ ∃ m, fs.get (m :: (r ++ dst)) ≠ none

/-- A blocked path is left as it was, every other one gets the type it has in the source. -/
def Synced (fs fs' : FS) (src dst : Path) : Prop :=
  ∀ q, (Blocked fs src dst q → fs'.get (q ++ dst) = fs.get (q ++ dst)) ∧
    (¬ Blocked fs src dst q → fs'.kind (q ++ dst) = fs.kind (q ++ src))

/-- In a plain source nothing but a directory with entries is in the way. -/
theorem Plain.kept_iff (h : Plain fs src) : Kept fs src dst q ↔ Blocked fs src dst q := by
  constructor
  · rintro ⟨r, hr, k, hk, hdir, hreg⟩
    have hk' : k = .reg := (h r k hk).resolve_right hdir
    exact ⟨r, hr, hk' ▸ hk, hreg hk'⟩
  · rintro ⟨r, hr, hreg, hm⟩
    exact ⟨r, hr, .reg, hreg, by simp, fun _ => hm⟩

theorem result_kind {o : Option Obj} (h : ∀ k, o.map Obj.kind = some k → k = .reg ∨ k = .dir) (old : Option Obj) :
    (result umask o old).map Obj.kind = o.map Obj.kind := by
  match o with
  | some (.reg ..) | none => rfl
  | some (.dir perm) =>
    obtain ⟨perm', hperm'⟩ := result_dir umask perm old
    rw [hperm']
    rfl
  | some (.symlink _) | some .other => simpa [Obj.kind] using h _ rfl

theorem Updated.synced (h : Updated umask fs fs' src dst) (hplain : Plain fs src) : Synced fs fs' src dst := by
  intro q
  rw [← hplain.kept_iff]
  refine ⟨(h q).1, fun hkept => ?_⟩
  rw [FS.kind, (h q).2 hkept, result_kind (hplain q), FS.kind]

theorem main_spec (env : Env) {w : Proc} (hs : w.fs.kind src = some .dir) (hd : w.fs.kind dst = some .dir) (hap : Apart src dst)
    (hplain : Plain w.fs src) {fuel : Nat} (hfuel : w.fs.depth < fuel) :
    ∃ w', main env fuel src dst w = .ok w' ∧ (∀ p, ¬ dst <:+ p → w'.fs.kind p = w.fs.kind p) ∧
      ∀ q, (Blocked w.fs src dst q → w'.fs.kind (q ++ dst) = w.fs.kind (q ++ dst)) ∧
        (¬ Blocked w.fs src dst q → w'.fs.kind (q ++ dst) = w.fs.kind (q ++ src)) := by
  obtain ⟨w', hw', hoff, h⟩ := main_updated env hs hd hap (.ofDepth w.fs src hfuel) (.ofDepth w.fs dst hfuel)
  have hsynced := h.synced hplain
  refine ⟨w', hw', fun p hp => hoff.kind hp, fun q => ⟨fun hb => ?_, (hsynced q).2⟩⟩
  rw [FS.kind, (hsynced q).1 hb, FS.kind]

theorem plain_of_objs (h : ∀ p ∈ fs.objs.keys, src <:+ p → fs.kind p = some .reg ∨ fs.kind p = some .dir) :
    Plain fs src := by
  intro q k hk
  have hmem := AList.mem_keys.1 (fs.mem_objs_iff.2 (fs.get_ne_none hk))
  rcases h _ hmem (List.suffix_append q src) with hreg | hdir
  · exact .inl (Option.some.inj (hk.symm.trans hreg))
  · exact .inr (Option.some.inj (hk.symm.trans hdir))

/-- The trees are alike exactly when no directory with entries was in the place of a regular file. -/
theorem structure_mirror (env : Env) (w : Proc) (src dst : Path) (hs : w.fs.kind src = some .dir)
    (hd : w.fs.kind dst = some .dir) (hap : Apart src dst) (hplain : Plain w.fs src) :
    ∃ N, ∀ fuel ≥ N, ∃ w', main env fuel src dst w = .ok w' ∧
      ((∀ q, w'.fs.kind (q ++ dst) = w'.fs.kind (q ++ src)) ↔
        ∀ q, w.fs.kind (q ++ src) = some .reg → w.fs.kind (q ++ dst) = some .dir → w.fs.names (q ++ dst) = []) := by
  refine ⟨w.fs.depth + 1, fun fuel hfuel => ?_⟩
  obtain ⟨w', hw', hoff, h⟩ := main_spec env hs hd hap hplain hfuel
  have hsrc : ∀ q, w'.fs.kind (q ++ src) = w.fs.kind (q ++ src) := fun q => hoff _ (hap.not_suffix_append q)
  refine ⟨w', hw', ?_⟩
  constructor
  · intro hmirror q hreg hdir
    by_contra hne
    obtain ⟨m, hm⟩ := List.exists_mem_of_ne_nil _ hne
    have hblocked : Blocked w.fs src dst q := ⟨q, List.suffix_refl q, hreg, m, w.fs.mem_names.1 hm⟩
    have hkind := hmirror q
    rw [(h q).1 hblocked, hsrc, hdir, hreg] at hkind
    cases hkind
  · intro hfree q
    rw [hsrc]
    refine (h q).2 ?_
    rintro ⟨r, -, hreg, m, hm⟩
    have hmem := w.fs.mem_names.2 hm
    rw [hfree r hreg (w.fs.kind_parent hm)] at hmem
    cases hmem

/-- A link, a file for a directory and a directory for a file are replaced. -/
theorem structure_mirror_replaced :
    let w : Proc := ⟨.ofList [(["src"], .dir 0o755), (["a", "src"], .reg [104, 105] 7 0o600),
      (["b", "src"], .dir 0o750), (["c", "b", "src"], .reg [] 8 0o644), (["d", "src"], .reg [1] 9 0o644),
      (["dst"], .dir 0o755), (["a", "dst"], .symlink ["a", "src"]), (["b", "dst"], .reg [2] 3 0o644),
      (["d", "dst"], .dir 0o755), (["e", "dst"], .dir 0o755), (["f", "e", "dst"], .other)], []⟩
    ∃ N, ∀ fuel ≥ N, ∃ w', main (.listing 0o022) fuel ["src"] ["dst"] w = .ok w' ∧
      ((∀ q, w'.fs.kind (q ++ ["dst"]) = w'.fs.kind (q ++ ["src"])) ↔
        ∀ q, w.fs.kind (q ++ ["src"]) = some .reg → w.fs.kind (q ++ ["dst"]) = some .dir →
          w.fs.names (q ++ ["dst"]) = []) := by
  intro w
  exact structure_mirror (.listing 0o022) w ["src"] ["dst"] (by decide +kernel) (by decide +kernel)
    ⟨by decide, by decide⟩ (plain_of_objs (by decide +kernel))

/-- `a` is a file in the source and a directory with the entry `b` in the destination, and stays one. -/
theorem directory_stays :
    let w : Proc := ⟨.ofList [(["src"], .dir 0o755), (["a", "src"], .reg [104, 105] 7 0o644),
      (["dst"], .dir 0o755), (["a", "dst"], .dir 0o755), (["b", "a", "dst"], .reg [] 1 0o644)], []⟩
    w.fs.kind ["src"] = some .dir ∧ w.fs.kind ["dst"] = some .dir ∧ Apart ["src"] ["dst"] ∧ Plain w.fs ["src"] ∧
      ∃ w', main (.listing 0o022) 3 ["src"] ["dst"] w = .ok w' ∧
        w'.fs.kind ["a", "src"] = some .reg ∧ w'.fs.kind ["a", "dst"] = some .dir := by
  intro w
  refine ⟨by decide +kernel, by decide +kernel, ⟨by decide, by decide⟩, plain_of_objs (by decide +kernel), ?_⟩
  have hrun : (main (.listing 0o022) 3 ["src"] ["dst"] w).toOption.map
      (fun w' => (w'.fs.kind ["a", "src"], w'.fs.kind ["a", "dst"])) = some (some .reg, some .dir) := by
    decide +kernel
  cases hmain : main (.listing 0o022) 3 ["src"] ["dst"] w with
  | error stop => rw [hmain] at hrun; cases hrun
  | ok w' =>
    rw [hmain] at hrun
    have hkinds := Prod.mk.inj (Option.some.inj hrun)
    exact ⟨w', rfl, hkinds.1, hkinds.2⟩

end OsLab.A9
