import OsLab.A9.Live
import OsLab.A9.Mirror

/-!
# A destination inside the source (`A9/rsync.c`)

When `dst` lies inside `src`, the entry of `src` that leads to `dst` is synchronised with the entry of `dst` of the same
name, which is made if it is not there and lies inside that entry again: the recursion never ends
(`syncDirectories_nested`). In all other cases it does, even with streams that return what is made while they are open
(`sync_terminates_iff`). More fuel does not change a result (`Le`), so the rounds before that of the entry in question
may be looked at with as much as they need.
-/

namespace OsLab.A9

open FileSys FS

variable {σ τ : Type} {env : Env} {fs : FS} {src dst : Path} {m n : Name} {w : Proc}

/-- With enough fuel the run ends: it returns, exits or crashes. -/
def Terminates (run : Nat → Except Stop Proc) : Prop := ∃ N, ∀ fuel, N ≤ fuel → run fuel ≠ .error .fuel

/-! ## More fuel -/

/-- The first result is the second, unless its fuel has run out. -/
def Le (r r' : Except Stop σ) : Prop := r = .error .fuel ∨ r = r'

namespace Le

variable {r r' r'' : Except Stop σ}

theorem refl (r : Except Stop σ) : Le r r := .inr rfl

theorem trans (h : Le r r') (h' : Le r' r'') : Le r r'' := by
  rcases h with hfuel | rfl
  · exact .inl hfuel
  · exact h'

theorem bind {g g' : σ → Except Stop τ} (h : Le r r') (hg : ∀ s, Le (g s) (g' s)) : Le (r >>= g) (r' >>= g') := by
  rcases h with rfl | rfl
  · exact .inl rfl
  · cases r with
    | ok s => exact hg s
    | error e => exact .inr rfl

theorem eachEntry {f g : Name → σ → Except Stop σ} (h : ∀ n s, Le (f n s) (g n s)) (items : List Dirent) (s : σ) :
    Le (eachEntry f items s) (eachEntry g items s) := by
  induction items generalizing s with
  | nil => exact refl _
  | cons item items ih =>
    cases item with
    | self => exact ih s
    | parent => exact ih s
    | entry n => exact (h n s).bind ih

theorem removeEntry {rec rec' : Path → Proc → Except Stop Proc} (h : ∀ p w, Le (rec p w) (rec' p w)) (path : Path)
    (n : Name) (v : Proc × Stat) : Le (removeEntry rec path n v) (removeEntry rec' path n v) := by
  rw [A9.removeEntry, A9.removeEntry]
  split
  · exact (h _ _).bind fun w => refl _
  · exact refl _

theorem syncEntry {rec rec' : Path → Path → Proc → Except Stop Proc} (h : ∀ s d w, Le (rec s d w) (rec' s d w))
    (src dst : Path) (n : Name) (v : Vars) : Le (syncEntry env rec src dst n v) (syncEntry env rec' src dst n v) := by
  rw [A9.syncEntry, A9.syncEntry]
  dsimp only
  split
  · exact refl _
  · split
    · split
      · exact (h _ _ _).bind fun w => refl _
      · split
        · exact (h _ _ _).bind fun w => refl _
        · exact (h _ _ _).bind fun w => refl _
    · exact refl _

theorem deleteEntry {rmdir rmdir' : Path → Proc → Except Stop Proc} (h : ∀ p w, Le (rmdir p w) (rmdir' p w))
    (src dst : Path) (n : Name) (v : Vars) : Le (deleteEntry rmdir src dst n v) (deleteEntry rmdir' src dst n v) := by
  rw [A9.deleteEntry, A9.deleteEntry]
  dsimp only
  split
  · exact refl _
  · split
    · exact (h _ _).bind fun w => refl _
    · exact refl _

end Le

theorem removeDirectory_le (env : Env) (fuel : Nat) (p : Path) (w : Proc) :
    Le (removeDirectory env fuel p w) (removeDirectory env (fuel + 1) p w) := by
  induction fuel generalizing p w with
  | zero => exact .inl rfl
  | succ fuel ih =>
    rw [removeDirectory, removeDirectory]
    split
    · exact .refl _
    · exact (Le.eachEntry (fun n s => Le.removeEntry ih p n s) _ _).bind fun v => .refl _

theorem syncDirectories_le_succ (env : Env) (fuel : Nat) (src dst : Path) (w : Proc) :
    Le (syncDirectories env fuel src dst w) (syncDirectories env (fuel + 1) src dst w) := by
  induction fuel generalizing src dst w with
  | zero => exact .inl rfl
  | succ fuel ih =>
    rw [syncDirectories, syncDirectories]
    split
    · exact .refl _
    · exact .refl _
    · refine (Le.eachEntry (fun n s => Le.syncEntry ih src dst n s) _ _).bind fun v => ?_
      exact (Le.eachEntry (fun n s => Le.deleteEntry (removeDirectory_le env fuel) src dst n s) _ _).bind fun v => .refl _

/-- **More fuel does not change a result.** -/
theorem syncDirectories_le (env : Env) {fuel fuel' : Nat} (h : fuel ≤ fuel') (src dst : Path) (w : Proc) :
    Le (syncDirectories env fuel src dst w) (syncDirectories env fuel' src dst w) := by
  induction h with
  | refl => exact .refl _
  | step _ ih => exact ih.trans (syncDirectories_le_succ env _ src dst w)

/-! ## A recursion without end -/

/-- A loop that gets to a round without end. -/
theorem eachEntry_fuel {f : Name → σ → Except Stop σ} {items : List Dirent} {s : σ} (I : σ → Prop)
    (hmem : .entry n ∈ items) (hs : I s)
    (hother : ∀ m s, m ≠ n → .entry m ∈ items → I s → f m s = .error .fuel ∨ ∃ s', f m s = .ok s' ∧ I s')
    (hend : ∀ s, I s → f n s = .error .fuel) : eachEntry f items s = .error .fuel := by
  induction items generalizing s with
  | nil => exact absurd hmem List.not_mem_nil
  | cons item items ih =>
    have hother' := fun m s hm hmem => hother m s hm (List.mem_cons_of_mem item hmem)
    cases item with
    | self => exact ih ((List.mem_cons.1 hmem).resolve_left nofun) hs hother'
    | parent => exact ih ((List.mem_cons.1 hmem).resolve_left nofun) hs hother'
    | entry m =>
      by_cases hm : m = n
      · subst hm
        rw [eachEntry, hend s hs]
        rfl
      · have hmem' : .entry n ∈ items := by
          refine (List.mem_cons.1 hmem).resolve_left fun heq => hm ?_
          exact (Dirent.entry.inj heq).symm
        rcases hother m s hm List.mem_cons_self hs with hfuel | ⟨s', hs', hI⟩
        · rw [eachEntry, hfuel]
          rfl
        · rw [eachEntry, hs']
          exact ih hmem' hI hother'

theorem kind_of_suffix {p q : Path} (h : fs.kind p = some .dir) (hq : q <:+ p) : fs.kind q = some .dir := by
  induction p with
  | nil => rwa [List.suffix_nil.1 hq]
  | cons n p ih =>
    rcases List.suffix_cons_iff.1 hq with rfl | hq
    · exact h
    · exact ih (fs.kind_parent (fs.get_ne_none h)) hq

/-- `n` is the entry of `src` that leads to `dst`. -/
structure Inside (n : Name) (src dst : Path) : Prop where
  leads : n :: src <:+ dst

namespace Inside

theorem of_suffix (h : src <:+ dst) (hne : src ≠ dst) : ∃ n, Inside n src dst := by
  obtain ⟨r, rfl⟩ := h
  rcases List.eq_nil_or_concat' r with rfl | ⟨r, n, rfl⟩
  · exact absurd rfl hne
  · exact ⟨n, ⟨by rw [← List.append_cons]; exact List.suffix_append r _⟩⟩

theorem length_lt (h : Inside n src dst) : src.length < dst.length := h.leads.length_le

/-- The entry of `dst` of that name lies inside that of `src`. -/
theorem entry (h : Inside n src dst) : n :: src <:+ n :: dst ∧ n :: src ≠ n :: dst := by
  refine ⟨h.leads.trans (List.suffix_cons n dst), fun heq => ?_⟩
  have hlen := h.length_lt
  rw [(List.cons.inj heq).2] at hlen
  exact absurd hlen (lt_irrefl _)

/-- The other entries of `src` have nothing to do with those of `dst`. -/
theorem apart (h : Inside n src dst) (hm : m ≠ n) : Apart (m :: src) (m :: dst) := by
  have hlen := h.length_lt
  constructor
  · intro hsuff
    have heq : m :: src = n :: src := by
      rcases List.suffix_cons_iff.1 hsuff with hsame | hdst
      · rw [(List.cons.inj hsame).2] at hlen
        exact absurd hlen (lt_irrefl _)
      · exact List.IsSuffix.eq_of_length (List.suffix_of_suffix_length_le hdst h.leads le_rfl) rfl
    exact hm (List.cons.inj heq).1
  · intro hsuff
    have hle := hsuff.length_le
    rw [List.length_cons, List.length_cons] at hle
    omega

/-- `dst` is not at or above them. -/
theorem not_suffix (h : Inside n src dst) (hm : m ≠ n) : ¬ dst <:+ m :: src := by
  intro hsuff
  have heq := (h.leads.trans hsuff).eq_of_length rfl
  exact hm (List.cons.inj heq).1.symm

end Inside

/-- A round for another entry ends or runs out of fuel, and leaves the way to `dst` as it is. -/
theorem syncEntry_other (env : Env) (fuel : Nat) {v : Vars} (h : Inside n src dst) (hm : m ≠ n)
    (hdst : v.w.fs.kind dst = some .dir) (hthere : v.w.fs.get (m :: src) ≠ none) :
    syncEntry env (syncDirectories env fuel) src dst m v = .error .fuel ∨
      ∃ v', syncEntry env (syncDirectories env fuel) src dst m v = .ok v' ∧ SameOff (m :: dst) v.w.fs v'.w.fs := by
  have hsrc := kind_of_suffix hdst ((List.suffix_cons n src).trans h.leads)
  -- with the fuel that the trees need
  obtain ⟨v', hv', hoff, -⟩ := syncEntry_spec env (syncDirectories_writes env (max fuel (v.w.fs.depth + 1))) hsrc hdst
    (h.apart hm) (.ofDepth v.w.fs _ (by omega)) (.ofDepth v.w.fs _ (by omega)) hthere
  have hle : Le (syncEntry env (syncDirectories env fuel) src dst m v)
      (syncEntry env (syncDirectories env (max fuel (v.w.fs.depth + 1))) src dst m v) :=
    .syncEntry (syncDirectories_le env (Nat.le_max_left _ _)) src dst m v
  rw [hv'] at hle
  exact hle.imp_right fun heq => ⟨v', heq, hoff⟩

/-- The round for the entry that leads to `dst` gets to a directory inside that entry. -/
theorem syncEntry_inside (env : Env) {rec : Path → Path → Proc → Except Stop Proc} {v : Vars} (h : Inside n src dst)
    (hdst : v.w.fs.kind dst = some .dir)
    (hrec : ∀ w, w.fs.kind (n :: dst) = some .dir → rec (n :: src) (n :: dst) w = .error .fuel) :
    syncEntry env rec src dst n v = .error .fuel := by
  have hsrc := kind_of_suffix hdst ((List.suffix_cons n src).trans h.leads)
  obtain ⟨perm, hperm⟩ := exists_dir (kind_of_suffix hdst h.leads)
  have hstat := (statOf_lstat (n := n) hdst { v.dstStat with kind := none, perm := 0 } rfl).kind
  rw [syncEntry]
  simp only [lstat_entry hsrc, hperm, Option.map_some, Option.getD_some, hstat]
  rw [if_neg (by simp [Obj.stat]), if_pos (by rfl)]
  split
  · next hdir =>
    rw [hrec v.w hdir]
    rfl
  · next hdir =>
    split
    · next hnone =>
      rw [hrec _ (kind_of_get (setAt_mkdir hdst ((FS.kind_eq_none_iff _).1 hnone) _).get_self)]
      rfl
    · have hrm : SetAt (n :: dst) none v.w.fs (v.w.fs.remove (n :: dst)) := setAt_remove hdst (names_eq_nil hdir)
      have hdst₁ : (v.w.fs.remove (n :: dst)).kind dst = some .dir :=
        (hrm.sameOff.kind (not_cons_suffix n dst)).trans hdst
      rw [hrec _ (kind_of_get (setAt_mkdir hdst₁ hrm.get_self _).get_self)]
      rfl

/-- **A destination inside the source** is never done with. -/
theorem syncDirectories_nested (env : Env) (fuel : Nat) (hdst : w.fs.kind dst = some .dir) (hsuff : src <:+ dst)
    (hne : src ≠ dst) : syncDirectories env fuel src dst w = .error .fuel := by
  induction fuel generalizing src dst w with
  | zero => rfl
  | succ fuel ih =>
    obtain ⟨n, h⟩ := Inside.of_suffix hsuff hne
    have hsrc := kind_of_suffix hdst hsuff
    have hentry := kind_of_suffix hdst h.leads
    rw [syncDirectories, opendir_dir hsrc, opendir_dir hdst]
    dsimp only
    rw [Proc.opened_fs, Proc.opened_fs, eachEntry_fuel
      (fun v : Vars => v.w.fs.kind dst = some .dir ∧ SameOff dst w.fs v.w.fs) (n := n)
      (env.mem_readdir.2 (w.fs.get_ne_none hentry)) ?_ ?_ ?_]
    · rfl
    · rw [Proc.opened_fs, Proc.opened_fs]
      exact ⟨hdst, .refl⟩
    · rintro m v hm hmem ⟨hv, hoff⟩
      have hthere : v.w.fs.get (m :: src) ≠ none := by
        rw [hoff _ (h.not_suffix hm)]
        exact env.mem_readdir.1 hmem
      rcases syncEntry_other env fuel h hm hv hthere with hfuel | ⟨v', hv', hoff'⟩
      · exact .inl hfuel
      · exact .inr ⟨v', hv', (hoff'.kind (not_cons_suffix m dst)).trans hv,
          hoff.trans (hoff'.mono (List.suffix_cons m dst))⟩
    · rintro v ⟨hv, -⟩
      exact syncEntry_inside env h hv fun w' hw' => ih hw' h.entry.1 h.entry.2

/-- It ends in all other cases, whatever the streams return. -/
theorem syncLive_terminates (env : Env) (listing : Proc → Proc → Path → List Dirent)
    (hsrc : w.fs.kind src = some .dir) (hdst : w.fs.kind dst = some .dir) (hout : ¬ (src <:+ dst ∧ src ≠ dst)) :
    Terminates fun fuel => syncLive env listing fuel src dst w := by
  refine ⟨w.fs.depth + 2, fun fuel hfuel => ?_⟩
  by_cases hsame : src = dst
  · subst hsame
    exact (syncLive_self env listing fuel hfuel hsrc (.ofDepth w.fs src)).ne_fuel
  · have hsuff : ¬ src <:+ dst := fun hsuff => hout ⟨hsuff, hsame⟩
    exact (syncLive_safe env listing fuel hfuel src dst w hsuff
      ⟨.of_dir hsrc, .of_dir hdst, .ofDepth w.fs src, .ofDepth w.fs dst⟩).ne_fuel

/-- **Synchronisation ends** just when `dst` does not lie inside `src`, and then it does so whatever the streams return
of what is made while they are open. -/
theorem sync_terminates_iff (env : Env) (w : Proc) (src dst : Path) (hsrc : w.fs.kind src = some .dir)
    (hdst : w.fs.kind dst = some .dir) :
    (Terminates (fun fuel => syncDirectories env fuel src dst w) ↔ ¬ (src <:+ dst ∧ src ≠ dst)) ∧
      (¬ (src <:+ dst ∧ src ≠ dst) → ∀ listing, Terminates fun fuel => syncLive env listing fuel src dst w) := by
  refine ⟨⟨?_, fun hout => ?_⟩, fun hout listing => syncLive_terminates env listing hsrc hdst hout⟩
  · rintro ⟨N, hN⟩ ⟨hsuff, hne⟩
    exact hN N le_rfl (syncDirectories_nested env N hdst hsuff hne)
  · have hlive := syncLive_terminates env (fun w v p => env.readdir w.fs v.fs p) hsrc hdst hout
    simpa only [syncLive_env] using hlive

/-- The same two directories one way and the other. -/
theorem sync_terminates_iff_two :
    let w : Proc := ⟨.ofList [(["a"], .dir 0o755), (["b", "a"], .dir 0o755), (["c", "b", "a"], .dir 0o755)], []⟩
    Terminates (fun fuel => syncDirectories (.listing 0o022) fuel ["b", "a"] ["a"] w) ∧
      ¬ Terminates (fun fuel => syncDirectories (.listing 0o022) fuel ["a"] ["b", "a"] w) := by
  intro w
  have hout := sync_terminates_iff (.listing 0o022) w ["b", "a"] ["a"] (by decide +kernel) (by decide +kernel)
  have hin := sync_terminates_iff (.listing 0o022) w ["a"] ["b", "a"] (by decide +kernel) (by decide +kernel)
  exact ⟨hout.1.2 (by decide), fun h => hin.1.1 h (by decide)⟩

/-- An empty directory inside the source. -/
theorem nested_never_ends : ¬ ∀ (env : Env) (w : Proc) (src dst : Path), w.fs.kind src = some .dir →
    w.fs.kind dst = some .dir → Terminates fun fuel => syncDirectories env fuel src dst w := by
  intro h
  let w : Proc := ⟨.ofList [(["a"], .dir 0o755), (["b", "a"], .dir 0o755)], []⟩
  have hdst : w.fs.kind ["b", "a"] = some .dir := by decide +kernel
  obtain ⟨N, hN⟩ := h (.listing 0o022) w ["a"] ["b", "a"] (by decide +kernel) hdst
  exact hN N le_rfl (syncDirectories_nested _ N hdst (by decide) (by decide))

end OsLab.A9
