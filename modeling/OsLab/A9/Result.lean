import OsLab.A9.Sync

/-!
# What a run of `rsync.c` leaves

| result | says |
| --- | --- |
| `main_updated` | where nothing is stuck, the destination has the `result` of what was on both sides, and is as before elsewhere |
| `Updated.kept_iff` | what one run leaves, the next one leaves |
| `main_idempotent` | a second run changes nothing, whatever the order its streams list |
| `main_order_irrelevant` | the order the streams list does not matter |
| `regular_files_agree` | regular files have the mtime and the permissions of the source's, and its contents but for the quick check (`:79`) |
-/

namespace OsLab.A9

open FileSys FS

variable {env : Env} {umask : BitVec 12} {fs fs' : FS} {src dst : Path} {n : Name} {q : Path}

theorem Stuck.not_reg (h : Stuck fs src dst) : ¬ (fs.kind src = some .reg ∧ fs.kind dst = some .reg) := by
  rintro ⟨hs, hd⟩
  obtain ⟨k, hk, -, hreg⟩ := h
  rw [hs] at hk
  obtain ⟨m, hm⟩ := hreg (Option.some.inj hk).symm
  rw [fs.kind_parent hm] at hd
  cases hd

/-- What is kept is stuck itself, or lies below a path of the source that is no directory. -/
theorem Kept.cases (h : Kept fs src dst q) : Stuck fs (q ++ src) (q ++ dst) ∨ fs.get (q ++ src) = none := by
  obtain ⟨r, ⟨t, rfl⟩, hstuck⟩ := h
  rcases eq_or_ne t [] with rfl | ht
  · exact .inl hstuck
  · right
    obtain ⟨k, hk, hdir, -⟩ := hstuck
    rw [List.append_assoc]
    exact fs.get_below_none (by simpa [hk] using hdir) t ht

theorem Kept.not_reg (h : Kept fs src dst q) : ¬ (fs.kind (q ++ src) = some .reg ∧ fs.kind (q ++ dst) = some .reg) := by
  rcases h.cases with hstuck | hnone
  · exact hstuck.not_reg
  · exact fun hreg => fs.get_ne_none hreg.1 hnone

theorem result_dir (umask perm : BitVec 12) (old : Option Obj) :
    ∃ perm', result umask (some (.dir perm)) old = some (.dir perm') := by
  match old with
  | some (.dir perm') => exact ⟨perm', rfl⟩
  | some (.reg ..) | some (.symlink _) | some .other | none => exact ⟨_, rfl⟩

theorem result_ne_none {o : Obj} (h : o.kind = .reg ∨ o.kind = .dir) (old : Option Obj) : result umask (some o) old ≠ none := by
  cases o with
  | reg => exact Option.some_ne_none _
  | dir perm =>
    obtain ⟨perm', hperm'⟩ := result_dir umask perm old
    rw [hperm']
    exact Option.some_ne_none _
  | symlink | other => simp [Obj.kind] at h

theorem Written.covers (h : Written umask fs fs' src dst) (hs : SameBelow src fs fs') : Covers fs' src dst := by
  intro q n _ hk
  rw [← List.cons_append, hs.kind] at hk
  rw [← List.cons_append]
  have hthere : fs.get ((n :: q) ++ src) ≠ none := hk.elim fs.get_ne_none fs.get_ne_none
  by_cases hkept : Kept fs src dst (n :: q)
  · rw [(h _).1 hkept]
    obtain ⟨k, hk', hdir, hreg⟩ := hkept.cases.resolve_right hthere
    rw [hk'] at hk
    obtain ⟨m, hm⟩ := hreg (by simpa [hdir] using hk)
    exact fs.get_ne_none (fs.kind_parent hm)
  · obtain ⟨o, ho⟩ := Option.ne_none_iff_exists'.1 hthere
    have hresult := (h _).2 hkept
    intro hnone
    rw [hnone, stamp_none, ho] at hresult
    rw [kind_of_get ho] at hk
    exact result_ne_none (by simpa using hk) _ hresult.symm

/-- After both passes. -/
def Updated (umask : BitVec 12) (fs fs' : FS) (src dst : Path) : Prop :=
  ∀ q, (Kept fs src dst q → fs'.get (q ++ dst) = fs.get (q ++ dst)) ∧
    (¬ Kept fs src dst q → fs'.get (q ++ dst) = result umask (fs.get (q ++ src)) (fs.get (q ++ dst)))

theorem main_updated (env : Env) {w : Proc} (hs : w.fs.kind src = some .dir) (hd : w.fs.kind dst = some .dir)
    (hap : Apart src dst) {fuel : Nat} (hshs : Shallow w.fs src fuel) (hshd : Shallow w.fs dst fuel) :
    ∃ w', main env fuel src dst w = .ok w' ∧ SameOff dst w.fs w'.fs ∧ Updated env.umask w.fs w'.fs src dst := by
  obtain ⟨w₁, hw₁, hoff, h⟩ := syncDirectories_writes env fuel src dst w hs hd hap hshs hshd
  have hsame := hoff.below hap
  have hd₁ : w₁.fs.kind dst = some .dir := by
    obtain ⟨perm, hperm⟩ := exists_dir hs
    obtain ⟨perm', hperm'⟩ := exists_dir hd
    have hkept : ¬ Kept w.fs src dst [] := by
      rintro ⟨r, hr, hstuck⟩
      rw [List.suffix_nil.1 hr] at hstuck
      exact not_stuck_of_dir hs hstuck
    have hresult := (h []).2 hkept
    rw [List.nil_append, List.nil_append, hperm, hperm'] at hresult
    rw [FS.kind, ← stamp_kind (some (.dir perm)), hresult]
    rfl
  obtain ⟨w₂, hw₂, hoff₂, hstamped⟩ := changeTimestampsAndPerms_spec env fuel src dst w₁ (hsame.kind_self.trans hs) hd₁ hap
    (h.covers hsame) (hshs.congr hsame)
  refine ⟨w₂, ?_, hoff.trans hoff₂, fun q => ⟨fun hkept => ?_, fun hkept => ?_⟩⟩
  · rw [main, hw₁]
    exact hw₂
  · rw [hstamped q, (h q).1 hkept, hsame q, stamp_of_ne hkept.not_reg]
  · rw [hstamped q, hsame q, (h q).2 hkept]

/-! ## A second run -/

theorem Kept.below (h : Kept fs src dst q) (n : Name) : Kept fs src dst (n :: q) := by
  obtain ⟨r, hr, hstuck⟩ := h
  exact ⟨r, hr.trans (List.suffix_cons n q), hstuck⟩

namespace Updated

/-- A directory that stays in the place of a file keeps its entries, and no other file has any. -/
theorem kept_iff (h : Updated umask fs fs' src dst) (hs : SameBelow src fs fs') : Kept fs' src dst q ↔ Kept fs src dst q := by
  constructor
  · rintro ⟨r, hr, k, hk, hdir, hreg⟩
    rw [hs.kind] at hk
    by_contra hkept
    have hr' : ¬ Kept fs src dst r := fun ⟨t, ht, hstuck⟩ => hkept ⟨t, ht.trans hr, hstuck⟩
    have hk' : k = .reg := by
      by_contra hne
      exact hr' ⟨r, List.suffix_refl r, k, hk, hdir, fun heq => absurd heq hne⟩
    obtain ⟨content, mtime, perm, ho⟩ := exists_reg (hk' ▸ hk)
    obtain ⟨m, hm⟩ := hreg hk'
    have hkind := fs'.kind_parent hm
    rw [FS.kind, (h r).2 hr', ho] at hkind
    cases hkind
  · rintro ⟨r, hr, k, hk, hdir, hreg⟩
    refine ⟨r, hr, k, by rwa [hs.kind], hdir, fun hk' => ?_⟩
    obtain ⟨m, hm⟩ := hreg hk'
    have hkept : Kept fs src dst r := ⟨r, List.suffix_refl r, k, hk, hdir, hreg⟩
    refine ⟨m, ?_⟩
    rwa [← List.cons_append, (h _).1 (hkept.below m)]

/-- Nothing new becomes deeper than both trees were. -/
theorem shallow {k : Nat} (h : Updated umask fs fs' src dst) (hshs : Shallow fs src k) (hshd : Shallow fs dst k) :
    Shallow fs' dst k := by
  intro q hq
  by_cases hkept : Kept fs src dst q
  · refine hshd q ?_
    rwa [FS.kind, ← (h q).1 hkept, ← FS.kind]
  · refine hshs q fun hnone => hq ?_
    rw [FS.kind_eq_none_iff] at hnone ⊢
    rw [(h q).2 hkept, hnone]
    rfl

end Updated

/-- A file that looks like the source's is as long. -/
theorem length_contentAfter (content : List UInt8) (mtime : Int) (old : Option Obj) :
    (contentAfter content mtime old).length = content.length := by
  unfold contentAfter
  split
  · split
    · next hsame => exact hsame.1.symm
    · rfl
  · rfl

theorem result_result (umask umask' : BitVec 12) (o old : Option Obj) :
    result umask' o (result umask o old) = result umask o old := by
  match o with
  | some (.reg content mtime perm) =>
    have hsame : contentAfter content mtime (some (.reg (contentAfter content mtime old) mtime perm))
        = contentAfter content mtime old := if_pos ⟨(length_contentAfter content mtime old).symm, rfl⟩
    simp only [result, hsame]
  | some (.dir perm) =>
    obtain ⟨perm', hperm'⟩ := result_dir umask perm old
    rw [hperm']
    rfl
  | some (.symlink _) | some .other | none => rfl

/-- Streams list `.`, `..` and what was there when they were opened. -/
def Env.listing (umask : BitVec 12) : Env where
  umask := umask
  now _ _ := 0
  garbage _ _ := ⟨none, 0, 0, 0⟩
  readdir fs _ p := .self :: .parent :: (fs.names p).map .entry
  listed fs fs' p n hn _ := by
    have hinj : Function.Injective Dirent.entry := fun a b h => Dirent.entry.inj h
    rw [List.count_cons_of_ne (by simp), List.count_cons_of_ne (by simp)]
    exact List.count_eq_one_of_mem (fs.names_nodup.map hinj) (List.mem_map_of_mem (fs.mem_names.2 hn))
  there fs fs' p n hn := by
    left
    simpa [fs.mem_names] using hn

/-- The second run may list its streams in another order, at another time and with another umask. -/
theorem main_idempotent (env env' : Env) (w : Proc) (src dst : Path) (hs : w.fs.kind src = some .dir)
    (hd : w.fs.kind dst = some .dir) (hap : Apart src dst) :
    ∃ N, ∀ fuel ≥ N, ∀ fuel' ≥ N, ∃ w₁ w₂, main env fuel src dst w = .ok w₁ ∧ main env' fuel' src dst ⟨w₁.fs, []⟩ = .ok w₂ ∧
      ∀ q, w₂.fs.get (q ++ dst) = w₁.fs.get (q ++ dst) := by
  refine ⟨w.fs.depth + 1, fun fuel hfuel fuel' hfuel' => ?_⟩
  obtain ⟨w₁, hw₁, hoff₁, h₁⟩ := main_updated env hs hd hap (.ofDepth w.fs src hfuel) (.ofDepth w.fs dst hfuel)
  have hsame := hoff₁.below hap
  have hshs : Shallow w.fs src fuel' := .ofDepth w.fs src hfuel'
  have hd₁ : w₁.fs.kind dst = some .dir := by
    rw [← List.nil_append dst, FS.kind]
    by_cases hkept : Kept w.fs src dst []
    · rw [(h₁ []).1 hkept, ← FS.kind, List.nil_append, hd]
    · obtain ⟨perm, hperm⟩ := exists_dir hs
      obtain ⟨perm', hperm'⟩ := exists_dir hd
      rw [(h₁ []).2 hkept, List.nil_append, List.nil_append, hperm, hperm']
      rfl
  obtain ⟨w₂, hw₂, hoff₂, h₂⟩ := main_updated env' (w := ⟨w₁.fs, []⟩) (hsame.kind_self.trans hs) hd₁ hap
    (hshs.congr hsame) (h₁.shallow hshs (.ofDepth w.fs dst hfuel'))
  refine ⟨w₁, w₂, hw₁, hw₂, fun q => ?_⟩
  by_cases hkept : Kept w.fs src dst q
  · exact (h₂ q).1 ((h₁.kept_iff hsame).2 hkept)
  · rw [(h₂ q).2 fun hkept' => hkept ((h₁.kept_iff hsame).1 hkept'), hsame q, (h₁ q).2 hkept, result_result]

/-- A link and a directory in the source, and in the destination a file with the size and mtime of the source's, one to
be replaced and a directory that stays. -/
theorem main_idempotent_mixed :
    let w : Proc := ⟨.ofList [(["src"], .dir 0o755), (["a", "src"], .reg [104, 105] 7 0o600), (["l", "src"], .symlink ["a"]),
      (["b", "src"], .dir 0o750), (["c", "b", "src"], .reg [] 8 0o644), (["d", "src"], .reg [1] 9 0o644),
      (["dst"], .dir 0o755), (["a", "dst"], .reg [1, 2] 7 0o644), (["b", "dst"], .reg [2] 3 0o644),
      (["d", "dst"], .dir 0o755), (["e", "d", "dst"], .other)], []⟩
    ∃ N, ∀ fuel ≥ N, ∀ fuel' ≥ N, ∃ w₁ w₂, main (.listing 0o022) fuel ["src"] ["dst"] w = .ok w₁ ∧
      main (.listing 0o077) fuel' ["src"] ["dst"] ⟨w₁.fs, []⟩ = .ok w₂ ∧
      ∀ q, w₂.fs.get (q ++ ["dst"]) = w₁.fs.get (q ++ ["dst"]) := by
  intro w
  exact main_idempotent (.listing 0o022) (.listing 0o077) w ["src"] ["dst"] (by decide +kernel) (by decide +kernel)
    ⟨by decide, by decide⟩

/-! ## Two orders -/

/-- An object without what the umask decides, the permissions of a directory that was made. -/
def shown : Obj → Obj
  | .dir _ => .dir 0
  | o => o

theorem shown_result (umask umask' : BitVec 12) (o old : Option Obj) :
    (result umask' o old).map shown = (result umask o old).map shown := by
  match o with
  | some (.dir perm) =>
    obtain ⟨perm₁, h₁⟩ := result_dir umask perm old
    obtain ⟨perm₂, h₂⟩ := result_dir umask' perm old
    rw [h₁, h₂]
    rfl
  | some (.reg ..) | some (.symlink _) | some .other | none => rfl

/-- **The order of the directories does not matter.** Two runs whose streams list their entries in any orders, and
what appears or is replaced after they were opened or not, leave the same destination; under two umasks it differs in the
permissions of directories only. -/
theorem main_order_irrelevant (env env' : Env) (w : Proc) (src dst : Path) (hs : w.fs.kind src = some .dir)
    (hd : w.fs.kind dst = some .dir) (hap : Apart src dst) :
    ∃ N, ∀ fuel ≥ N, ∀ fuel' ≥ N, ∃ w₁ w₂, main env fuel src dst w = .ok w₁ ∧ main env' fuel' src dst w = .ok w₂ ∧
      ∀ q, (w₂.fs.get (q ++ dst)).map shown = (w₁.fs.get (q ++ dst)).map shown ∧
        (env'.umask = env.umask → w₂.fs.get (q ++ dst) = w₁.fs.get (q ++ dst)) := by
  refine ⟨w.fs.depth + 1, fun fuel hfuel fuel' hfuel' => ?_⟩
  obtain ⟨w₁, hw₁, -, h₁⟩ := main_updated env hs hd hap (.ofDepth w.fs src hfuel) (.ofDepth w.fs dst hfuel)
  obtain ⟨w₂, hw₂, -, h₂⟩ := main_updated env' hs hd hap (.ofDepth w.fs src hfuel') (.ofDepth w.fs dst hfuel')
  refine ⟨w₁, w₂, hw₁, hw₂, fun q => ?_⟩
  by_cases hkept : Kept w.fs src dst q
  · have hsame : w₂.fs.get (q ++ dst) = w₁.fs.get (q ++ dst) := ((h₂ q).1 hkept).trans ((h₁ q).1 hkept).symm
    exact ⟨congrArg (Option.map shown) hsame, fun _ => hsame⟩
  · rw [(h₁ q).2 hkept, (h₂ q).2 hkept]
    exact ⟨shown_result env.umask env'.umask _ _, fun hmask => by rw [hmask]⟩

/-- Streams list what is there when they are read, last first, and neither `.` nor `..`. -/
def Env.listingNow (umask : BitVec 12) : Env where
  umask := umask
  now _ _ := 1
  garbage _ _ := ⟨some .dir, 0, 0, 0⟩
  readdir _ fs p := (fs.names p).reverse.map .entry
  listed fs fs' p n hn hsame := by
    have hinj : Function.Injective Dirent.entry := fun a b h => Dirent.entry.inj h
    have hnodup : (fs'.names p).reverse.Nodup := List.nodup_reverse.2 fs'.names_nodup
    have hmem : n ∈ (fs'.names p).reverse := List.mem_reverse.2 (fs'.mem_names.2 (hsame ▸ hn))
    exact List.count_eq_one_of_mem (hnodup.map hinj) (List.mem_map_of_mem hmem)
  there fs fs' p n hn := by
    right
    simpa [fs'.mem_names] using hn

/-- In the destination `b` is replaced by a directory after its stream was opened, and `e` goes. -/
theorem main_order_irrelevant_replaced :
    let w : Proc := ⟨.ofList [(["src"], .dir 0o755), (["a", "src"], .reg [104, 105] 7 0o600), (["b", "src"], .dir 0o750),
      (["c", "b", "src"], .reg [] 8 0o644), (["dst"], .dir 0o755), (["b", "dst"], .reg [2] 3 0o644), (["e", "dst"], .other)], []⟩
    ∃ N, ∀ fuel ≥ N, ∀ fuel' ≥ N, ∃ w₁ w₂, main (.listing 0o022) fuel ["src"] ["dst"] w = .ok w₁ ∧
      main (.listingNow 0o022) fuel' ["src"] ["dst"] w = .ok w₂ ∧
      ∀ q, (w₂.fs.get (q ++ ["dst"])).map shown = (w₁.fs.get (q ++ ["dst"])).map shown ∧
        ((Env.listingNow 0o022).umask = (Env.listing 0o022).umask →
          w₂.fs.get (q ++ ["dst"]) = w₁.fs.get (q ++ ["dst"])) := by
  intro w
  exact main_order_irrelevant (.listing 0o022) (.listingNow 0o022) w ["src"] ["dst"] (by decide +kernel) (by decide +kernel)
    ⟨by decide, by decide⟩

/-! ## Regular files -/

/-- `ms`, `ps` are the source's and `md`, `pd` the destination's after the run. -/
theorem regular_files_agree (env : Env) (w : Proc) (src dst : Path) (hs : w.fs.kind src = some .dir)
    (hd : w.fs.kind dst = some .dir) (hap : Apart src dst) :
    ∃ N, ∀ fuel ≥ N, ∃ w', main env fuel src dst w = .ok w' ∧ ∀ q content content' ms md ps pd,
      w'.fs.get (q ++ src) = some (.reg content ms ps) → w'.fs.get (q ++ dst) = some (.reg content' md pd) →
      w.fs.get (q ++ src) = some (.reg content ms ps) ∧ md = ms ∧ pd = ps ∧
        (∀ old perm, w.fs.get (q ++ dst) = some (.reg old ms perm) → old.length = content.length → content' = old) ∧
        ((¬ ∃ old perm, w.fs.get (q ++ dst) = some (.reg old ms perm) ∧ old.length = content.length) → content' = content) := by
  refine ⟨w.fs.depth + 1, fun fuel hfuel => ?_⟩
  obtain ⟨w', hw', hoff, h⟩ := main_updated env hs hd hap (.ofDepth w.fs src hfuel) (.ofDepth w.fs dst hfuel)
  have hsame := hoff.below hap
  refine ⟨w', hw', fun q content content' ms md ps pd hsrc hdst => ?_⟩
  have hkept : ¬ Kept w.fs src dst q := by
    intro hkept
    refine hkept.not_reg ⟨?_, ?_⟩
    · rw [← hsame.kind, kind_of_get hsrc]
      rfl
    · rw [FS.kind, ← (h q).1 hkept, hdst]
      rfl
  rw [hsame q] at hsrc
  rw [(h q).2 hkept, hsrc] at hdst
  obtain ⟨hcontent, hms, hps⟩ := Obj.reg.inj (Option.some.inj hdst)
  refine ⟨hsrc, hms.symm, hps.symm, fun old perm hold hlen => ?_, fun hnew => ?_⟩
  · rw [← hcontent, hold]
    exact if_pos ⟨hlen.symm, rfl⟩
  · rw [← hcontent]
    unfold contentAfter
    split
    · next old mtime perm hold =>
      rw [if_neg]
      rintro ⟨hlen, rfl⟩
      exact hnew ⟨old, perm, hold, hlen.symm⟩
    · rfl

/-- `a` passes the quick check with other contents, `d` does not, `b` replaces a link. -/
theorem regular_files_agree_quick :
    let w : Proc := ⟨.ofList [(["src"], .dir 0o755), (["a", "src"], .reg [104, 105] 7 0o600), (["b", "src"], .reg [1] 8 0o644),
      (["d", "src"], .reg [1] 9 0o644), (["dst"], .dir 0o755), (["a", "dst"], .reg [1, 2] 7 0o644),
      (["b", "dst"], .symlink ["a", "dst"]), (["d", "dst"], .reg [2] 3 0o644)], []⟩
    ∃ N, ∀ fuel ≥ N, ∃ w', main (.listing 0o022) fuel ["src"] ["dst"] w = .ok w' ∧ ∀ q content content' ms md ps pd,
      w'.fs.get (q ++ ["src"]) = some (.reg content ms ps) → w'.fs.get (q ++ ["dst"]) = some (.reg content' md pd) →
      w.fs.get (q ++ ["src"]) = some (.reg content ms ps) ∧ md = ms ∧ pd = ps ∧
        (∀ old perm, w.fs.get (q ++ ["dst"]) = some (.reg old ms perm) → old.length = content.length → content' = old) ∧
        ((¬ ∃ old perm, w.fs.get (q ++ ["dst"]) = some (.reg old ms perm) ∧ old.length = content.length) →
          content' = content) := by
  intro w
  exact regular_files_agree (.listing 0o022) w ["src"] ["dst"] (by decide +kernel) (by decide +kernel)
    ⟨by decide, by decide⟩

end OsLab.A9
