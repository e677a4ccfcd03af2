import OsLab.A9.Calls

/-!
# The two passes path by path (`A9/rsync.c`)

| here | there |
| --- | --- |
| `Handling`, `eachEntry_source` | a loop over the source that changes the entry of the same name in the destination (`:56-164`, `:200-235`) |
| `stamp`, `Stamped` | what `change_timestamps_and_perms` makes of an object, of a tree |
| `Stuck`, `Kept` | what `sync_directories` leaves as it is: no case for the type (`:73`, `:143`), or `remove` fails with `ENOTEMPTY` (`:122`) |
| `result`, `Written` | what a run makes of an object; what `sync_directories` makes of a tree, up to what `stamp` repairs |

The source may hold objects of any type.
-/

namespace OsLab.A9

open FileSys FS

variable {env : Env} {umask : BitVec 12} {fs fs' fs'' : FS} {src dst : Path} {n : Name} {q : Path}

/-! ## A loop over the source -/

/-- `P fs fs' src dst` is about what is at or below `src` before, and at or below `dst` before and after. -/
structure Local (P : FS → FS → Path → Path → Prop) : Prop where
  before : ∀ {fs fs' fs'' src dst}, P fs' fs'' src dst → SameBelow src fs fs' → SameBelow dst fs fs' → P fs fs'' src dst
  after : ∀ {fs fs' fs'' src dst}, P fs fs' src dst → SameBelow dst fs' fs'' → P fs fs'' src dst

/-- `done` are the names returned so far. -/
structure Handling (P : FS → FS → Path → Path → Prop) (src dst : Path) (fs fs' : FS) (done : List Name) : Prop where
  off : SameOff dst fs fs'
  self : fs'.get dst = fs.get dst
  handled : ∀ n ∈ done, P fs fs' (n :: src) (n :: dst)
  rest : ∀ n, n ∉ done → SameBelow (n :: dst) fs fs'

namespace Handling
variable {P : FS → FS → Path → Path → Prop} {done : List Name}

theorem start : Handling P src dst fs fs [] :=
  ⟨.refl, rfl, fun _ h => absurd h List.not_mem_nil, fun _ _ => .refl⟩

theorem step (h : Handling P src dst fs fs' done) (hP : Local P) (hap : Apart src dst) (hn : n ∉ done)
    (hoff : SameOff (n :: dst) fs' fs'') (hround : P fs' fs'' (n :: src) (n :: dst)) :
    Handling P src dst fs fs'' (n :: done) where
  off := h.off.trans (hoff.mono (List.suffix_cons n dst))
  self := (hoff dst (not_cons_suffix n dst)).trans h.self
  handled m hm := by
    rcases eq_or_ne m n with rfl | hmn
    · exact hP.before hround ((h.off.below hap).entry m) (h.rest m hn)
    · exact hP.after (h.handled m ((List.mem_cons.1 hm).resolve_left hmn)) (hoff.below (.siblings hmn dst))
  rest m hm := by
    have hmn : m ≠ n := fun heq => hm (heq ▸ List.mem_cons_self)
    exact (h.rest m fun hm' => hm (List.mem_cons_of_mem n hm')).trans (hoff.below (.siblings hmn dst))

end Handling

theorem eachEntry_source (env : Env) {P : FS → FS → Path → Path → Prop} (hP : Local P) (f : Name → Vars → Except Stop Vars)
    (v₀ : Vars) (hap : Apart src dst)
    (round : ∀ n v, v.w.fs.get (n :: src) ≠ none → SameBelow src v₀.w.fs v.w.fs → v.w.fs.get dst = v₀.w.fs.get dst →
      SameBelow (n :: dst) v₀.w.fs v.w.fs →
      ∃ v', f n v = .ok v' ∧ SameOff (n :: dst) v.w.fs v'.w.fs ∧ P v.w.fs v'.w.fs (n :: src) (n :: dst)) :
    ∃ v done, eachEntry f (env.readdir v₀.w.fs v₀.w.fs src) v₀ = .ok v ∧ Handling P src dst v₀.w.fs v.w.fs done ∧
      ∀ n, n ∈ done ↔ v₀.w.fs.get (n :: src) ≠ none := by
  obtain ⟨v, done, hv, h, hdone⟩ := eachEntry_rule f (env.readdir v₀.w.fs v₀.w.fs src) v₀
    (fun done v => Handling P src dst v₀.w.fs v.w.fs done) .start (by
      intro n done v hlisted hfresh h
      have hthere := env.mem_readdir.1 hlisted
      have hn := hfresh (env.listed _ _ _ _ hthere rfl)
      have hsame := h.off.below hap
      obtain ⟨v', hv', hoff, hround⟩ := round n v (by rwa [(hsame.entry n).get]) hsame h.self (h.rest n hn)
      exact ⟨v', hv', h.step hP hap hn hoff hround⟩)
  exact ⟨v, done, hv, h, fun n => (hdone n).trans env.mem_readdir⟩

/-! ## `change_timestamps_and_perms` -/

/-- The object of the source and that of the destination. -/
def stamp : Option Obj → Option Obj → Option Obj
  | some (.reg _ mtime perm), some (.reg content _ _) => some (.reg content mtime perm)
  | _, o => o

@[simp] theorem stamp_none (o : Option Obj) : stamp o none = none := by
  unfold stamp
  split
  · next h => cases h
  · rfl

@[simp] theorem none_stamp (o : Option Obj) : stamp none o = o := rfl

theorem stamp_of_ne {o o' : Option Obj} (h : ¬ (o.map Obj.kind = some .reg ∧ o'.map Obj.kind = some .reg)) :
    stamp o o' = o' := by
  unfold stamp
  split
  · exact absurd ⟨rfl, rfl⟩ h
  · rfl

theorem stamp_kind (o o' : Option Obj) : (stamp o o').map Obj.kind = o'.map Obj.kind := by
  unfold stamp
  split <;> rfl

def Stamped (fs fs' : FS) (src dst : Path) : Prop :=
  ∀ q, fs'.get (q ++ dst) = stamp (fs.get (q ++ src)) (fs.get (q ++ dst))

theorem Stamped.isLocal : Local Stamped where
  before h hs hd q := by rw [h q, hs q, hd q]
  after h hd q := by rw [hd q, h q]

/-- There is nothing to change, and nothing to recurse into. -/
theorem Stamped.same (hreg : ¬ (fs.kind src = some .reg ∧ fs.kind dst = some .reg))
    (hdir : ¬ (fs.kind src = some .dir ∧ fs.kind dst = some .dir)) : Stamped fs fs src dst := by
  intro q
  rcases eq_or_ne q [] with rfl | hq
  · rw [List.nil_append, List.nil_append, stamp_of_ne hreg]
  · rcases not_and_or.1 hdir with hs | hd
    · rw [fs.get_below_none hs q hq, none_stamp]
    · rw [fs.get_below_none hd q hq, stamp_none]

theorem Stamped.ofReg {content content' : List UInt8} {mtime mtime' : Int} {perm perm' : BitVec 12}
    (hs : fs.get src = some (.reg content mtime perm)) (hd : fs.get dst = some (.reg content' mtime' perm'))
    (hset : SetAt dst (some (.reg content' mtime perm)) fs fs') : Stamped fs fs' src dst := by
  intro q
  rcases eq_or_ne q [] with rfl | hq
  · rw [List.nil_append, List.nil_append, hset.get_self, hs, hd]
    rfl
  · have hnone : fs.get (q ++ dst) = none := fs.get_below_none (by simp [FS.kind, hd, Obj.kind]) q hq
    rw [hset.get_ne (by simpa using hq), hnone, stamp_none]

/-- No file or directory of the source is missing in the destination. -/
def Covers (fs : FS) (src dst : Path) : Prop :=
  ∀ q n, fs.kind (q ++ dst) = some .dir → (fs.kind (n :: (q ++ src)) = some .reg ∨ fs.kind (n :: (q ++ src)) = some .dir) →
    fs.get (n :: (q ++ dst)) ≠ none

theorem Covers.entry (h : Covers fs src dst) (n : Name) : Covers fs (n :: src) (n :: dst) := by
  intro q m
  rw [List.append_cons q n dst, List.append_cons q n src]
  exact h (q ++ [n]) m

theorem Covers.congr (h : Covers fs src dst) (hs : SameBelow src fs fs') (hd : SameBelow dst fs fs') : Covers fs' src dst := by
  intro q n
  rw [hd.kind q, ← List.cons_append, hs.kind, ← List.cons_append, hd]
  exact h q n

/-- What is asked of `change_timestamps_and_perms`, for trees up to a depth. -/
def Stamps (change : Path → Path → Proc → Except Stop Proc) (fuel : Nat) : Prop :=
  ∀ src dst w, w.fs.kind src = some .dir → w.fs.kind dst = some .dir → Apart src dst → Covers w.fs src dst →
    Shallow w.fs src fuel → ∃ w', change src dst w = .ok w' ∧ SameOff dst w.fs w'.fs ∧ Stamped w.fs w'.fs src dst

theorem changeEntry_spec {rec : Path → Path → Proc → Except Stop Proc} {fuel : Nat} (hrec : Stamps rec fuel) {v : Vars}
    (hs : v.w.fs.kind src = some .dir) (hd : v.w.fs.kind dst = some .dir) (hap : Apart src dst)
    (hcov : v.w.fs.kind (n :: src) = some .reg ∨ v.w.fs.kind (n :: src) = some .dir → v.w.fs.get (n :: dst) ≠ none)
    (hcov' : Covers v.w.fs (n :: src) (n :: dst)) (hsh : Shallow v.w.fs (n :: src) fuel) (hn : v.w.fs.get (n :: src) ≠ none) :
    ∃ v', changeEntry rec src dst n v = .ok v' ∧ SameOff (n :: dst) v.w.fs v'.w.fs ∧
      Stamped v.w.fs v'.w.fs (n :: src) (n :: dst) := by
  have hap' : Apart (n :: src) (n :: dst) := ((hap.entry n).symm.entry n).symm
  obtain ⟨o, ho⟩ := Option.ne_none_iff_exists'.1 hn
  have hk : v.w.fs.kind (n :: src) = some o.kind := kind_of_get ho
  have hdk := lstat_getD_kind (n := n) hd v.dstStat
  unfold changeEntry
  simp only [lstat_entry hs, ho, Option.map_some, Option.getD_some]
  cases o with
  | symlink | other =>
    rw [if_neg (by simp [Obj.stat]), if_neg (by simp [Obj.stat])]
    exact ⟨_, rfl, .refl, .same (by simp [hk, Obj.kind]) (by simp [hk, Obj.kind])⟩
  | reg content mtime perm =>
    obtain ⟨o', ho'⟩ := Option.ne_none_iff_exists'.1 (hcov (.inl hk))
    have hk' : v.w.fs.kind (n :: dst) = some o'.kind := kind_of_get ho'
    simp only [lstat_entry hd, ho', Option.map_some, Option.getD_some]
    rw [if_pos (by rfl)]
    cases o' with
    | symlink | other | dir =>
      rw [if_neg (by simp [Obj.stat])]
      exact ⟨_, rfl, .refl, .same (by simp [hk', Obj.kind]) (by simp [hk, Obj.kind])⟩
    | reg content' mtime' perm' =>
      rw [if_pos (by rfl)]
      refine ⟨_, rfl, ?_⟩
      simp only [Obj.stat]
      set w₁ := if mtime ≠ mtime' then (v.w.print "[t]" (n :: dst)).call (FS.utime · (n :: dst) mtime) else v.w
      have hmtime : SetAt (n :: dst) (some (.reg content' mtime perm')) v.w.fs w₁.fs := by
        by_cases hne : mtime ≠ mtime'
        · simp only [w₁, if_pos hne, Proc.call_fs, Proc.print_fs, utime_reg ho']
          exact .put (canPut_reg ho')
        · simp only [w₁, if_neg hne]
          rw [not_ne_iff] at hne
          exact hne ▸ .of_get ho'
      have hset : SetAt (n :: dst) (some (.reg content' mtime perm)) v.w.fs
          (if perm ≠ perm' then (w₁.print "[p]" (n :: dst)).call (FS.chmod · (n :: dst) perm) else w₁).fs := by
        by_cases hne : perm ≠ perm'
        · simp only [if_pos hne, Proc.call_fs, Proc.print_fs, chmod_reg hmtime.get_self]
          exact hmtime.trans (.put (canPut_reg hmtime.get_self))
        · simp only [if_neg hne]
          rw [not_ne_iff] at hne
          exact hne ▸ hmtime
      exact ⟨hset.sameOff, .ofReg ho ho' hset⟩
  | dir perm =>
    obtain ⟨o', ho'⟩ := Option.ne_none_iff_exists'.1 (hcov (.inr hk))
    rw [if_neg (by simp [Obj.stat]), hdk (.inl (hcov (.inr hk)))]
    by_cases hdir : v.w.fs.kind (n :: dst) = some .dir
    · rw [if_pos ⟨by rfl, hdir⟩]
      obtain ⟨w', hw', hoff, hstamped⟩ := hrec _ _ v.w hk hdir hap' hcov' hsh
      rw [hw']
      exact ⟨_, rfl, hoff, hstamped⟩
    · rw [if_neg fun h => hdir h.2]
      exact ⟨_, rfl, .refl, .same (by simp [hk, Obj.kind]) (fun h => hdir h.2)⟩

/-- By induction on the depth the source has. -/
theorem changeTimestampsAndPerms_spec (env : Env) : ∀ fuel, Stamps (changeTimestampsAndPerms env fuel) fuel := by
  intro fuel
  induction fuel with
  | zero => exact fun src dst w hs _ _ _ hsh => absurd (hsh.pos hs) (lt_irrefl 0)
  | succ fuel ih =>
    intro src dst w hs hd hap hcov hsh
    obtain ⟨v, done, hv, h, hdone⟩ := eachEntry_source env Stamped.isLocal
      (changeEntry (changeTimestampsAndPerms env fuel) src dst)
      ⟨(w.opened (some src)).opened (some dst), env.garbage w.fs src, env.garbage w.fs dst⟩ hap (by
        intro n v hn hsame hself hrest
        simp only [Proc.opened_fs] at hsame hself hrest
        have hn' := hsame.entry n
        refine changeEntry_spec ih (hsame.kind_self.trans hs) (by rw [FS.kind, hself, ← FS.kind, hd]) hap ?_
          ((hcov.entry n).congr hn' hrest) ((hsh.entry n).congr hn') hn
        rw [hn'.kind_self, hrest.get]
        exact hcov [] n hd)
    simp only [Proc.opened_fs] at hv h hdone
    refine ⟨v.w, ?_, h.off, fun q => ?_⟩
    · simp only [changeTimestampsAndPerms, opendir_dir hs, opendir_dir hd, Proc.opened_fs, hv]
      rfl
    · rcases List.eq_nil_or_concat' q with rfl | ⟨q, n, rfl⟩
      · rw [List.nil_append, List.nil_append, h.self, stamp_of_ne]
        rintro ⟨hreg, -⟩
        rw [← FS.kind, hs] at hreg
        cases hreg
      · rw [← List.append_cons, ← List.append_cons]
        by_cases hn : n ∈ done
        · exact h.handled n hn q
        · have hnone : w.fs.get (n :: src) = none := not_not.1 fun hn' => hn ((hdone n).2 hn')
          rw [h.rest n hn q, (FS.kind_eq_none_iff _).1 (FS.kind_append_none _ hnone q), none_stamp]

/-! ## `sync_directories` -/

/-- No branch of `sync_directories` changes what is at `dst` (`:73`, `:143`, or the failing `remove` of `:122`). -/
def Stuck (fs : FS) (src dst : Path) : Prop :=
  ∃ k, fs.kind src = some k ∧ k ≠ .dir ∧ (k = .reg → ∃ m, fs.get (m :: dst) ≠ none)

/-- The source and the destination are stuck at `q`, or above it. -/
def Kept (fs : FS) (src dst q : Path) : Prop := ∃ r, r <:+ q ∧ Stuck fs (r ++ src) (r ++ dst)

/-- What a run leaves of an object of the source and one of the destination. -/
def result (umask : BitVec 12) : Option Obj → Option Obj → Option Obj
  | some (.reg content mtime perm), old => some (.reg (contentAfter content mtime old) mtime perm)
  | some (.dir _), some (.dir perm) => some (.dir perm)
  | some (.dir perm), _ => some (.dir (perm &&& ~~~umask))
  | _, _ => none

/-- Apart from the mtime and the permissions of regular files, which `stamp` sets. -/
def Written (umask : BitVec 12) (fs fs' : FS) (src dst : Path) : Prop :=
  ∀ q, (Kept fs src dst q → fs'.get (q ++ dst) = fs.get (q ++ dst)) ∧
    (¬ Kept fs src dst q → stamp (fs.get (q ++ src)) (fs'.get (q ++ dst)) = result umask (fs.get (q ++ src)) (fs.get (q ++ dst)))

theorem not_stuck_of_none (h : fs.get src = none) : ¬ Stuck fs src dst := by
  rintro ⟨k, hk, -⟩
  exact fs.get_ne_none hk h

theorem not_stuck_of_dir (h : fs.kind src = some .dir) : ¬ Stuck fs src dst := by
  rintro ⟨k, hk, hdir, -⟩
  rw [h] at hk
  exact hdir (Option.some.inj hk).symm

theorem Kept.congr (h : Kept fs src dst q) (hs : SameBelow src fs fs') (hd : SameBelow dst fs fs') : Kept fs' src dst q := by
  obtain ⟨r, hr, k, hk, hdir, hreg⟩ := h
  refine ⟨r, hr, k, by rwa [hs.kind], hdir, fun hk' => ?_⟩
  obtain ⟨m, hm⟩ := hreg hk'
  refine ⟨m, ?_⟩
  rwa [← List.cons_append, hd]

/-- Below an entry the same paths are kept. -/
theorem kept_entry (hs : fs.kind src = some .dir) : Kept fs src dst (q ++ [n]) ↔ Kept fs (n :: src) (n :: dst) q := by
  constructor
  · rintro ⟨r, hr, hstuck⟩
    rcases List.suffix_concat_iff.1 hr with rfl | ⟨t, rfl, ht⟩
    · exact absurd hstuck (not_stuck_of_dir hs)
    · rw [← List.append_cons, ← List.append_cons] at hstuck
      exact ⟨t, ht, hstuck⟩
  · rintro ⟨t, ht, hstuck⟩
    refine ⟨t ++ [n], List.suffix_concat_iff.2 (.inr ⟨t, rfl, ht⟩), ?_⟩
    rwa [← List.append_cons, ← List.append_cons]

theorem not_kept_of_none (h : fs.get src = none) (q : Path) : ¬ Kept fs src dst q := by
  rintro ⟨r, -, hstuck⟩
  exact not_stuck_of_none ((fs.kind_eq_none_iff).1 (fs.kind_append_none h r)) hstuck

namespace Written

theorem isLocal : Local (Written umask) where
  before h hs hd q := by
    constructor
    · intro hkept
      rw [(h q).1 (hkept.congr hs hd), hd]
    · intro hkept
      rw [← hs q, (h q).2 fun hkept' => hkept (hkept'.congr hs.symm hd.symm), hd q]
  after h hd q := by
    rw [hd q]
    exact h q

/-- Nothing is done. -/
theorem ofStuck (h : Stuck fs src dst) : Written umask fs fs src dst :=
  fun _ => ⟨fun _ => rfl, fun hkept => absurd ⟨[], List.nil_suffix, h⟩ hkept⟩

/-- A regular file that could be put. -/
theorem ofReg {content : List UInt8} {mtime t : Int} {perm perm' : BitVec 12}
    (hs : fs.get src = some (.reg content mtime perm)) (hempty : fs.names dst = [])
    (hd : fs'.get dst = some (.reg (contentAfter content mtime (fs.get dst)) t perm')) : Written umask fs fs' src dst := by
  have hbelow : ∀ q, q ≠ [] → fs.get (q ++ src) = none := fs.get_below_none (by simp [FS.kind, hs, Obj.kind])
  have hfree : ∀ q, ¬ Kept fs src dst q := by
    rintro q ⟨r, -, hstuck⟩
    rcases eq_or_ne r [] with rfl | hr
    · obtain ⟨k, hk, -, hreg⟩ := hstuck
      rw [List.nil_append, kind_of_get hs] at hk
      obtain ⟨m, hm⟩ := hreg (Option.some.inj hk).symm
      have hmem := fs.mem_names.2 hm
      rw [List.nil_append, hempty] at hmem
      cases hmem
    · exact not_stuck_of_none (hbelow r hr) hstuck
  refine fun q => ⟨fun hkept => absurd hkept (hfree q), fun _ => ?_⟩
  rcases eq_or_ne q [] with rfl | hq
  · rw [List.nil_append, List.nil_append, hd, hs]
    rfl
  · rw [hbelow q hq, fs'.get_below_none (by simp [FS.kind, hd, Obj.kind]) q hq, stamp_none]
    rfl

/-- What the entries have, the directory has. -/
theorem ofEntries (hs : fs.kind src = some .dir) (hd : fs.kind dst = some .dir) (hself : fs'.get dst = fs.get dst)
    (hkept : ∀ n, fs.get (n :: src) ≠ none → Written umask fs fs' (n :: src) (n :: dst))
    (hgone : ∀ n, fs.get (n :: src) = none → fs'.get (n :: dst) = none) : Written umask fs fs' src dst := by
  intro q
  rcases List.eq_nil_or_concat' q with rfl | ⟨q, n, rfl⟩
  · refine ⟨fun _ => hself, fun _ => ?_⟩
    rw [List.nil_append, List.nil_append, hself, stamp_of_ne]
    · obtain ⟨perm, hperm⟩ := exists_dir hs
      obtain ⟨perm', hperm'⟩ := exists_dir hd
      rw [hperm, hperm']
      rfl
    · rw [← FS.kind, hs]
      rintro ⟨hreg, -⟩
      cases hreg
  · rw [← List.append_cons, ← List.append_cons, kept_entry hs]
    by_cases hn : fs.get (n :: src) = none
    · -- nothing on either side
      refine ⟨fun hkept => absurd hkept (not_kept_of_none hn q), fun _ => ?_⟩
      rw [(fs'.kind_eq_none_iff).1 (kind_append_none _ (hgone n hn) q), (fs.kind_eq_none_iff).1 (kind_append_none _ hn q),
        stamp_none]
      rfl
    · exact hkept n hn q

end Written

/-- What is asked of `sync_directories`, for trees up to a depth. -/
def Writes (env : Env) (sync : Path → Path → Proc → Except Stop Proc) (fuel : Nat) : Prop :=
  ∀ src dst w, w.fs.kind src = some .dir → w.fs.kind dst = some .dir → Apart src dst → Shallow w.fs src fuel →
    Shallow w.fs dst fuel → ∃ w', sync src dst w = .ok w' ∧ SameOff dst w.fs w'.fs ∧ Written env.umask w.fs w'.fs src dst

/-- On a directory made in the place of something that is not one. -/
theorem Writes.fresh {rec : Path → Path → Proc → Except Stop Proc} {fuel : Nat} (hrec : Writes env rec fuel) {w : Proc}
    {perm : BitVec 12} (hs : fs.get src = some (.dir perm)) (hap : Apart src dst) (hsh : Shallow fs src fuel)
    (hd : fs.kind dst ≠ some .dir) (hw : SetAt dst (some (.dir (perm &&& ~~~env.umask))) fs w.fs) :
    ∃ w', rec src dst w = .ok w' ∧ SameOff dst fs w'.fs ∧ Written env.umask fs w'.fs src dst := by
  have hsdir : fs.kind src = some .dir := kind_of_get hs
  have hsame : SameBelow src fs w.fs := hw.sameOff.below hap
  have hdir : w.fs.kind dst = some .dir := kind_of_get hw.get_self
  have hnone : ∀ q, q ≠ [] → w.fs.get (q ++ dst) = none := by
    intro q hq
    rw [hw.get_ne (by simp [hq]), fs.get_below_none hd q hq]
  have hsh' : Shallow w.fs dst fuel := by
    intro q hq
    rcases eq_or_ne q [] with rfl | hq'
    · exact hsh.pos hsdir
    · exact absurd ((FS.kind_eq_none_iff _).2 (hnone q hq')) hq
  obtain ⟨w', hw', hoff', h⟩ := hrec src dst w (hsame.kind_self.trans hsdir) hdir hap (hsh.congr hsame) hsh'
  refine ⟨w', hw', hw.sameOff.trans hoff', ?_⟩
  -- the same paths are stuck with the new directory: it has no entries, and before there were none
  have hkept : ∀ q, Kept fs src dst q ↔ Kept w.fs src dst q := by
    refine fun q => exists_congr fun r => and_congr_right fun _ => exists_congr fun k => ?_
    rw [hsame.kind r]
    refine and_congr_right fun _ => and_congr_right fun _ => imp_congr_right fun _ => exists_congr fun m => ?_
    rw [← List.cons_append, hnone (m :: r) (List.cons_ne_nil m r), fs.get_below_none hd (m :: r) (List.cons_ne_nil m r)]
  intro q
  rw [hkept q]
  constructor
  · intro hk
    rw [(h q).1 hk]
    rcases eq_or_ne q [] with rfl | hq
    · obtain ⟨r, hr, hstuck⟩ := hk
      rw [List.suffix_nil.1 hr] at hstuck
      exact absurd hstuck (not_stuck_of_dir (hsame.kind_self.trans hsdir))
    · rw [hnone q hq, fs.get_below_none hd q hq]
  · intro hk
    rw [← hsame q, (h q).2 hk]
    rcases eq_or_ne q [] with rfl | hq
    · rw [List.nil_append, List.nil_append, hw.get_self, hsame.get, hs]
      cases hget : fs.get dst with
      | none => rfl
      | some o =>
        cases o with
        | dir perm' => exact absurd (kind_of_get hget) hd
        | reg | symlink | other => rfl
    · rw [hnone q hq, fs.get_below_none hd q hq]

/-- A round of the first loop: only what is at the entry changes, and it is as it should be. -/
theorem syncEntry_spec (env : Env) {rec : Path → Path → Proc → Except Stop Proc} {fuel : Nat} (hrec : Writes env rec fuel)
    {v : Vars} (hs : v.w.fs.kind src = some .dir) (hd : v.w.fs.kind dst = some .dir) (hap : Apart (n :: src) (n :: dst))
    (hshs : Shallow v.w.fs (n :: src) fuel) (hshd : Shallow v.w.fs (n :: dst) fuel) (hn : v.w.fs.get (n :: src) ≠ none) :
    ∃ v', syncEntry env rec src dst n v = .ok v' ∧ SameOff (n :: dst) v.w.fs v'.w.fs ∧
      Written env.umask v.w.fs v'.w.fs (n :: src) (n :: dst) := by
  obtain ⟨o, ho⟩ := Option.ne_none_iff_exists'.1 hn
  have hk : v.w.fs.kind (n :: src) = some o.kind := kind_of_get ho
  have hst := statOf_lstat (n := n) hd { v.dstStat with kind := none, perm := 0 } rfl
  unfold syncEntry
  simp only [lstat_entry hs, ho, Option.map_some, Option.getD_some]
  generalize (v.w.fs.lstat (n :: dst)).getD _ = dstStat at hst ⊢
  cases o with
  | symlink | other =>
    rw [if_neg (by simp [Obj.stat]), if_neg (by simp [Obj.stat])]
    exact ⟨_, rfl, .refl, .ofStuck ⟨_, hk, by simp [Obj.kind], by simp [Obj.kind]⟩⟩
  | reg content ms ps =>
    rw [if_pos (by rfl)]
    refine ⟨_, rfl, ?_⟩
    by_cases hempty : v.w.fs.names (n :: dst) = []
    · have hne : n :: src ≠ n :: dst := by
        intro heq
        exact hap.1 (heq ▸ List.suffix_refl _)
      obtain ⟨t, perm, hset⟩ := syncReg_file env ho rfl hne hd hst hempty
      exact ⟨hset.sameOff, .ofReg ho hempty hset.get_self⟩
    · obtain ⟨m, hm⟩ := List.exists_mem_of_ne_nil _ hempty
      have hthere := (FS.mem_names _).1 hm
      rw [syncReg_blocked hd (FS.kind_parent _ hthere) hst.kind hempty]
      exact ⟨.refl, .ofStuck ⟨_, hk, by simp [Obj.kind], fun _ => ⟨m, hthere⟩⟩⟩
  | dir ps =>
    rw [if_neg (by simp [Obj.stat]), if_pos (by rfl), hst.kind]
    split
    · next hdir =>
      obtain ⟨w', hw', h⟩ := hrec _ _ v.w hk hdir hap hshs hshd
      rw [hw']
      exact ⟨_, rfl, h⟩
    · next hdir =>
      split
      · next hnone =>
        have hget := (FS.kind_eq_none_iff _).1 hnone
        obtain ⟨w', hw', h⟩ := hrec.fresh (w := (v.w.print "[+]" (n :: dst)).call
          (FS.mkdir · (n :: dst) ((Obj.dir ps).stat.perm &&& ~~~env.umask))) ho hap hshs hdir (setAt_mkdir hd hget _)
        rw [hw']
        exact ⟨_, rfl, h⟩
      · -- removed first, then as if there had been nothing
        set w₁ := (v.w.print "[-]" (n :: dst)).call (FS.remove · (n :: dst))
        have hrm : SetAt (n :: dst) none v.w.fs w₁.fs := setAt_remove hd (names_eq_nil hdir)
        have hd₁ : w₁.fs.kind dst = some .dir := (hrm.sameOff.kind (not_cons_suffix n dst)).trans hd
        obtain ⟨w', hw', h⟩ := hrec.fresh (w := (w₁.print "[+]" (n :: dst)).call
          (FS.mkdir · (n :: dst) ((Obj.dir ps).stat.perm &&& ~~~env.umask))) ho hap hshs hdir
          (hrm.trans (setAt_mkdir hd₁ hrm.get_self _))
        rw [hw']
        exact ⟨_, rfl, h⟩

theorem secondLoop_spec (env : Env) {rmdir : Path → Proc → Except Stop Proc} {fuel : Nat} (hrec : Removes rmdir fuel)
    {v₁ : Vars} {done₁ : List Name} (h₁ : Handling (Written env.umask) src dst fs v₁.w.fs done₁)
    (hdone₁ : ∀ n, n ∈ done₁ ↔ fs.get (n :: src) ≠ none) (hs : fs.kind src = some .dir) (hd : fs.kind dst = some .dir)
    (hap : Apart src dst) (hshd : Shallow fs dst (fuel + 1)) :
    ∃ v₂, eachEntry (deleteEntry rmdir src dst) (env.readdir fs v₁.w.fs dst) v₁ = .ok v₂ ∧
      SameOff dst fs v₂.w.fs ∧ Written env.umask fs v₂.w.fs src dst := by
  have hd₁ : v₁.w.fs.kind dst = some .dir := by rw [FS.kind, h₁.self, ← FS.kind, hd]
  obtain ⟨v₂, done₂, hv₂, ⟨h₂, hself⟩, hdone₂⟩ := eachEntry_rule (deleteEntry rmdir src dst)
    (env.readdir fs v₁.w.fs dst) v₁
    (fun done v => Clearing (fun n => fs.get (n :: src) ≠ none) dst v₁.w.fs v.w.fs done ∧ v.w.fs.get dst = v₁.w.fs.get dst)
    ⟨.start hd₁, rfl⟩ (by
      rintro n done v hlisted hfresh ⟨h, hself⟩
      have hsame := (h₁.off.trans h.off).below hap
      have hsrc : v.w.fs.kind src = some .dir := hsame.kind_self.trans hs
      by_cases hkeep : fs.get (n :: src) = none
      · -- it was in `dst` from the start, and is as it was
        have hrest := h₁.rest n fun hn => (hdone₁ n).1 hn hkeep
        have hthere : fs.get (n :: dst) ≠ none := by
          rcases env.there _ _ _ _ hlisted with hthere | hthere
          · exact hthere
          · rwa [hrest.get] at hthere
        have hn := hfresh (env.listed _ _ _ _ hthere hrest.get)
        have hrest' := hrest.trans (h.rest n (.inl hn))
        obtain ⟨v', hv', hoff, hgone⟩ := deleteEntry_gone hrec hsrc h.dir
          (by rwa [(hsame.entry n).get]) (by rwa [hrest'.get]) ((hshd.entry n).congr hrest')
        exact ⟨v', hv', h.remove (fun hkeep' => hkeep' hkeep) hoff hgone, (hoff dst (not_cons_suffix n dst)).trans hself⟩
      · obtain ⟨v', hv', hfs⟩ := deleteEntry_kept (n := n) hsrc (by rwa [(hsame.entry n).get])
        exact ⟨v', hv', hfs ▸ h.skip hkeep, hfs ▸ hself⟩)
  refine ⟨v₂, hv₂, h₁.off.trans h₂.off, .ofEntries hs hd (hself.trans h₁.self) (fun n hn => ?_) (fun n hn => ?_)⟩
  · exact Written.isLocal.after (h₁.handled n ((hdone₁ n).2 hn)) (h₂.rest n (.inr hn))
  · by_cases hmem : n ∈ done₂
    · exact h₂.gone n hmem (fun hkeep => hkeep hn)
    · have hsame := (h₁.rest n fun hn' => (hdone₁ n).1 hn' hn).get
      rw [(h₂.rest n (.inl hmem)).get, hsame]
      by_contra hthere
      exact hmem ((hdone₂ n).2 (env.mem_readdir_of_same hthere hsame))

/-- By induction on the depth the trees have. -/
theorem syncDirectories_writes (env : Env) : ∀ fuel, Writes env (syncDirectories env fuel) fuel := by
  intro fuel
  induction fuel with
  | zero => exact fun src dst w hs _ _ hsh _ => absurd (hsh.pos hs) (lt_irrefl 0)
  | succ fuel ih =>
    intro src dst w hs hd hap hshs hshd
    obtain ⟨v₁, done₁, hv₁, h₁, hdone₁⟩ := eachEntry_source env Written.isLocal
      (syncEntry env (syncDirectories env fuel) src dst)
      ⟨(w.opened (some src)).opened (some dst), env.garbage w.fs src, env.garbage w.fs dst⟩ hap (by
        intro n v hn hsame hself hrest
        simp only [Proc.opened_fs] at hsame hself hrest
        exact syncEntry_spec env ih (hsame.kind_self.trans hs) (by rw [FS.kind, hself, ← FS.kind, hd])
          ((hap.entry n).symm.entry n).symm ((hshs.entry n).congr (hsame.entry n)) ((hshd.entry n).congr hrest) hn)
    simp only [Proc.opened_fs] at hv₁ h₁ hdone₁
    obtain ⟨v₂, hv₂, hoff, hwritten⟩ := secondLoop_spec env (removeDirectory_spec env fuel) h₁ hdone₁ hs hd hap hshd
    refine ⟨(v₂.w.closed (some src)).closed (some dst), ?_, ?_, ?_⟩
    · simp only [syncDirectories, opendir_dir hs, opendir_dir hd, Proc.opened_fs, hv₁]
      change (eachEntry (deleteEntry (removeDirectory env fuel) src dst) (env.readdir w.fs v₁.w.fs dst) v₁ >>= _) = _
      rw [hv₂]
      rfl
    · rw [Proc.closed_fs, Proc.closed_fs]
      exact hoff
    · rw [Proc.closed_fs, Proc.closed_fs]
      exact hwritten

end OsLab.A9
