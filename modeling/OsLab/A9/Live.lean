import OsLab.A9.Calls

/-!
# Synchronising while the streams are open (`A9/rsync.c`)

| here | there |
| --- | --- |
| `eachLive` | the `readdir` loops, on directories that change between two calls |
| `removeLive`, `syncLive` | `remove_directory`, `sync_directories` with these loops |

`listing` says what a stream will return until its end, given the process when it is opened and when it is first
read. It is arbitrary, but what has been there at none of the calls so far is not returned (`eachLive`). A name may
come late, twice or not at all, and `lstat` may find nothing under it and leave the `struct stat` of the round before.

Directories are made below `dst` only, no deeper than those below `src` (`Grows`), so unless `dst` lies in `src` there
is a bound on the depth of both (`Bounded`), and the fuel does not run out.
-/

namespace OsLab.A9

open FileSys FS

/-- What has been there at none of the calls of `readdir` so far, nor when the stream was opened, is left out. -/
def eachLive {σ : Type} (fs : σ → FS) (p : Path) (f : Name → σ → Except Stop σ) :
    List FS → List Dirent → σ → Except Stop σ
  | _, [], s => .ok s
  | was, .entry n :: items, s =>
    if ∃ fs' ∈ fs s :: was, fs'.get (n :: p) ≠ none then f n s >>= eachLive fs p f (fs s :: was) items
    else eachLive fs p f (fs s :: was) items s
  | was, .self :: items, s => eachLive fs p f (fs s :: was) items s
  | was, .parent :: items, s => eachLive fs p f (fs s :: was) items s

def removeLive (env : Env) (listing : Proc → Proc → Path → List Dirent) : Nat → Path → Proc → Except Stop Proc
  | 0, _, _ => .error .fuel
  | fuel + 1, path, w =>
    match w.fs.opendir path with
    | none => .error (.crash w)
    | some dir => do
      let w := w.opened dir
      let v ← eachLive (fun v => v.1.fs) dir (removeEntry (removeLive env listing fuel) path) [w.fs] (listing w w dir)
        (w, env.garbage w.fs path)
      return (v.1.closed dir).call (FS.remove · path)

def syncLive (env : Env) (listing : Proc → Proc → Path → List Dirent) : Nat → Path → Path → Proc → Except Stop Proc
  | 0, _, _, _ => .error .fuel
  | fuel + 1, src, dst, w =>
    let srcDir := w.fs.opendir src
    let dstDir := w.fs.opendir dst
    let w := (w.opened srcDir).opened dstDir
    match srcDir, dstDir with
    | none, _ => .error (.exit (w.perror "Error opening source directory"))
    | _, none => .error (.exit (w.perror "Error opening destination directory"))
    | some srcDir, some dstDir => do
      let v ← eachLive (fun v => v.w.fs) srcDir (syncEntry env (syncLive env listing fuel) src dst) [w.fs]
        (listing w w srcDir) ⟨w, env.garbage w.fs src, env.garbage w.fs dst⟩
      let v ← eachLive (fun v => v.w.fs) dstDir (deleteEntry (removeLive env listing fuel) src dst) [w.fs]
        (listing w v.w dstDir) v
      return (v.w.closed srcDir).closed dstDir

variable {σ τ : Type} {env : Env} {listing : Proc → Proc → Path → List Dirent} {fs fs' fs'' : FS}
  {src dst d p : Path} {n : Name} {k : Nat}

/-! ## With the streams of `Env` -/

theorem eachLive_eq {get : σ → FS} {f : Name → σ → Except Stop σ} {items : List Dirent} {was : List FS} {s : σ}
    (h : ∀ n, .entry n ∈ items → ∃ fs' ∈ get s :: was, fs'.get (n :: p) ≠ none) :
    eachLive get p f was items s = eachEntry f items s := by
  induction items generalizing was s with
  | nil => rfl
  | cons item items ih =>
    have hrest : ∀ t, ∀ n, .entry n ∈ items → ∃ fs' ∈ get t :: (get s :: was), fs'.get (n :: p) ≠ none := by
      intro t n hn
      obtain ⟨fs', hmem, hthere⟩ := h n (List.mem_cons_of_mem _ hn)
      exact ⟨fs', List.mem_cons_of_mem _ hmem, hthere⟩
    cases item with
    | self => exact ih (hrest s)
    | parent => exact ih (hrest s)
    | entry n =>
      rw [eachLive, if_pos (h n List.mem_cons_self), eachEntry]
      cases f n s with
      | error e => rfl
      | ok t => exact ih (hrest t)

theorem removeLive_env (env : Env) (fuel : Nat) :
    removeLive env (fun w v p => env.readdir w.fs v.fs p) fuel = removeDirectory env fuel := by
  induction fuel with
  | zero => rfl
  | succ fuel ih =>
    funext path w
    rw [removeLive, removeDirectory, ih]
    cases w.fs.opendir path with
    | none => rfl
    | some dir =>
      dsimp only
      rw [eachLive_eq]
      exact fun n hn => ⟨_, List.mem_cons_self, Env.mem_readdir.1 hn⟩

/-- `sync_directories` is the case in which a stream returns what was there when it was opened. -/
theorem syncLive_env (env : Env) (fuel : Nat) :
    syncLive env (fun w v p => env.readdir w.fs v.fs p) fuel = syncDirectories env fuel := by
  induction fuel with
  | zero => rfl
  | succ fuel ih =>
    funext src dst w
    rw [syncLive, syncDirectories, ih, removeLive_env]
    cases w.fs.opendir src with
    | none => rfl
    | some srcDir =>
      cases w.fs.opendir dst with
      | none => rfl
      | some dstDir =>
        dsimp only
        rw [eachLive_eq]
        · refine congrArg _ (funext fun v => ?_)
          rw [eachLive_eq]
          intro n hn
          rcases env.there _ _ _ _ hn with hthere | hthere
          · exact ⟨_, List.mem_cons_of_mem _ (List.mem_singleton.2 rfl), hthere⟩
          · exact ⟨_, List.mem_cons_self, hthere⟩
        · exact fun n hn => ⟨_, List.mem_cons_self, Env.mem_readdir.1 hn⟩

/-! ## What is made -/

/-- Nothing but regular files is made. -/
def OnlyFiles (fs fs' : FS) : Prop := ∀ p kind, fs'.kind p = some kind → kind = .reg ∨ fs.kind p = some kind

/-- Besides, directories less than `k` names deep below `d`. -/
def Grows (d : Path) (k : Nat) (fs fs' : FS) : Prop :=
  ∀ p kind, fs'.kind p = some kind →
    kind = .reg ∨ fs.kind p = some kind ∨ kind = .dir ∧ ∃ q, p = q ++ d ∧ q.length < k

namespace OnlyFiles

theorem refl (fs : FS) : OnlyFiles fs fs := fun _ _ h => .inr h

theorem trans (h : OnlyFiles fs fs') (h' : OnlyFiles fs' fs'') : OnlyFiles fs fs'' :=
  fun p kind hp => (h' p kind hp).elim .inl (h p kind)

theorem grows (h : OnlyFiles fs fs') (d : Path) (k : Nat) : Grows d k fs fs' :=
  fun p kind hp => (h p kind hp).imp_right .inl

theorem noLink (h : OnlyFiles fs fs') (hp : NoLink fs p) : NoLink fs' p := by
  intro q hq hlink
  rcases h q _ hlink with hreg | hold
  · cases hreg
  · exact hp q hq hold

theorem put {o : Obj} (h : o.kind = .reg ∨ fs.kind p = some o.kind) : OnlyFiles fs (fs.put p o) := by
  intro q kind hq
  by_cases hput : fs.CanPut p o
  · rw [FS.kind, get_put hput] at hq
    split at hq
    · next hqp =>
      obtain rfl : o.kind = kind := Option.some.inj hq
      exact h.imp_right fun hold => hqp ▸ hold
    · exact .inr hq
  · rw [FS.put, dif_neg hput] at hq
    exact .inr hq

theorem del (fs : FS) (p : Path) : OnlyFiles fs (fs.del p) := by
  intro q kind hq
  by_cases hdel : p ≠ [] ∧ fs.names p = []
  · rw [FS.kind, get_del hdel.1 hdel.2] at hq
    split at hq
    · cases hq
    · exact .inr hq
  · rw [FS.del, dif_neg hdel] at hq
    exact .inr hq

theorem remove (fs : FS) (p : Path) : OnlyFiles fs (fs.remove p) := by
  rw [FS.remove]
  split
  · exact del fs _
  · exact refl fs

theorem openWrite (fs : FS) (p : Path) (perm : BitVec 12) (now : Int) : OnlyFiles fs (fs.openWrite p perm now).2 := by
  rw [FS.openWrite]
  split
  · exact refl fs
  · split
    · exact put (.inl rfl)
    · exact put (.inl rfl)
    · exact refl fs

theorem write (fs : FS) (fd : Option Path) (buf : List UInt8) (now : Int) : OnlyFiles fs (fs.write fd buf now) := by
  cases fd with
  | none => exact refl fs
  | some d =>
    simp only [FS.write]
    split
    · exact put (.inl rfl)
    · exact refl fs

theorem utime (fs : FS) (p : Path) (mtime : Int) : OnlyFiles fs (fs.utime p mtime) := by
  rw [FS.utime]
  split
  · split
    · exact put (.inl rfl)
    · exact refl fs
  · exact refl fs

theorem chmod (fs : FS) (p : Path) (perm : BitVec 12) : OnlyFiles fs (fs.chmod p perm) := by
  rw [FS.chmod]
  split
  · split
    · exact put (.inl rfl)
    · next hdir => exact put (.inr (by rw [kind_of_get hdir]; rfl))
    · exact refl fs
  · exact refl fs

theorem copyLoop (env : Env) (srcFd dstFd : Option Path) (rounds off : Nat) (fs : FS) :
    OnlyFiles fs (copyLoop env srcFd dstFd rounds off fs) := by
  induction rounds generalizing off fs with
  | zero => exact refl fs
  | succ rounds ih =>
    rw [A9.copyLoop]
    split
    · exact refl fs
    · exact (write fs _ _ _).trans (ih _ _)

theorem copyFile (env : Env) (srcPath dstPath : Path) (srcStat : Stat) (w : Proc) :
    OnlyFiles w.fs (copyFile env srcPath dstPath srcStat w).fs := by
  simp only [A9.copyFile, Proc.closed_fs, Proc.call_fs]
  exact (openWrite w.fs _ _ _).trans (copyLoop env _ _ _ _ _)

theorem syncReg (env : Env) (srcPath dstPath : Path) (srcStat dstStat : Stat) (w : Proc) :
    OnlyFiles w.fs (syncReg env srcPath dstPath srcStat dstStat w).fs := by
  rw [A9.syncReg]
  split
  · split
    · exact refl w.fs
    · have hcopy := copyFile env srcPath dstPath srcStat (w.print "[o]" dstPath)
      exact (hcopy.trans (utime _ _ _)).trans (chmod _ _ _)
  · split
    · exact copyFile env srcPath dstPath srcStat _
    · exact (remove w.fs dstPath).trans (copyFile env srcPath dstPath srcStat _)

end OnlyFiles

namespace Grows

theorem refl (d : Path) (k : Nat) (fs : FS) : Grows d k fs fs := fun _ _ h => .inr (.inl h)

theorem trans (h : Grows d k fs fs') (h' : Grows d k fs' fs'') : Grows d k fs fs'' := by
  intro p kind hp
  rcases h' p kind hp with hreg | hold | hnew
  · exact .inl hreg
  · exact h p kind hold
  · exact .inr (.inr hnew)

/-- What is made below an entry is one name deeper below the directory. -/
theorem entry (h : Grows (n :: d) k fs fs') : Grows d (k + 1) fs fs' := by
  intro p kind hp
  rcases h p kind hp with hreg | hold | ⟨hdir, q, rfl, hq⟩
  · exact .inl hreg
  · exact .inr (.inl hold)
  · refine .inr (.inr ⟨hdir, q ++ [n], List.append_cons q n d, ?_⟩)
    rw [List.length_append, List.length_singleton]
    omega

theorem mono {l : Nat} (h : Grows d k fs fs') (hle : k ≤ l) : Grows d l fs fs' := by
  intro p kind hp
  rcases h p kind hp with hreg | hold | ⟨hdir, q, hpq, hq⟩
  · exact .inl hreg
  · exact .inr (.inl hold)
  · exact .inr (.inr ⟨hdir, q, hpq, Nat.lt_of_lt_of_le hq hle⟩)

theorem noLink (h : Grows d k fs fs') (hp : NoLink fs p) : NoLink fs' p := by
  intro q hq hlink
  rcases h q _ hlink with hreg | hold | ⟨hdir, -⟩
  · cases hreg
  · exact hp q hq hold
  · cases hdir

theorem mkdir (h : NoLink fs d) (perm : BitVec 12) : Grows (n :: d) 1 fs (fs.mkdir (n :: d) perm) := by
  rw [FS.mkdir]
  rcases h.locate (n := n) with hnone | hsome
  · rw [hnone]
    exact refl _ _ fs
  · rw [hsome]
    dsimp only
    split
    · intro p kind hp
      by_cases hput : fs.CanPut (n :: d) (.dir perm)
      · rw [FS.kind, get_put hput] at hp
        split at hp
        · next hpd =>
          obtain rfl : Kind.dir = kind := Option.some.inj hp
          exact .inr (.inr ⟨rfl, [], hpd, Nat.one_pos⟩)
        · exact .inr (.inl hp)
      · rw [FS.put, dif_neg hput] at hp
        exact .inr (.inl hp)
    · exact refl _ _ fs

end Grows

/-! ## Running out of fuel -/

/-- The fuel does not run out, and a result meets `I`. -/
def Safe (I : σ → Prop) : Except Stop σ → Prop
  | .ok s => I s
  | .error (.exit _) => True
  | .error (.crash _) => True
  | .error .fuel => False

namespace Safe

variable {I : σ → Prop} {J : τ → Prop} {r : Except Stop σ}

theorem mono {I' : σ → Prop} (h : Safe I r) (himp : ∀ s, I s → I' s) : Safe I' r := by
  cases r with
  | ok s => exact himp s h
  | error e =>
    cases e with
    | exit | crash => trivial
    | fuel => exact h

theorem bind {g : σ → Except Stop τ} (h : Safe I r) (hg : ∀ s, I s → Safe J (g s)) : Safe J (r >>= g) := by
  cases r with
  | ok s => exact hg s h
  | error e =>
    cases e with
    | exit | crash => trivial
    | fuel => exact absurd h id

theorem ne_fuel (h : Safe I r) : r ≠ .error .fuel := by
  rintro rfl
  exact h

/-- **The loop rule**: what the rounds keep, the loop keeps. -/
theorem eachLive (I : σ → Prop) {get : σ → FS} {f : Name → σ → Except Stop σ} (hf : ∀ n s, I s → Safe I (f n s))
    (items : List Dirent) (was : List FS) {s : σ} (hs : I s) : Safe I (eachLive get p f was items s) := by
  induction items generalizing was s with
  | nil => exact hs
  | cons item items ih =>
    cases item with
    | self => exact ih _ hs
    | parent => exact ih _ hs
    | entry n =>
      rw [A9.eachLive]
      split
      · exact (hf n s hs).bind fun t ht => ih _ ht
      · exact ih _ hs

end Safe

/-! ## Bounds on the depth -/

/-- Directories below `d` are less than `k` names deep. -/
def DirsBelow (fs : FS) (d : Path) (k : Nat) : Prop := ∀ q, fs.kind (q ++ d) = some .dir → q.length < k

namespace DirsBelow

theorem entry (h : DirsBelow fs d (k + 1)) (n : Name) : DirsBelow fs (n :: d) k := by
  intro q hq
  have hlen := h (q ++ [n]) (by rwa [← List.append_cons])
  rw [List.length_append, List.length_singleton] at hlen
  omega

theorem pos (h : DirsBelow fs d k) (hd : fs.kind d = some .dir) : 0 < k := h [] hd

theorem onlyFiles (h : DirsBelow fs d k) (hfiles : OnlyFiles fs fs') : DirsBelow fs' d k := by
  intro q hq
  rcases hfiles _ _ hq with hreg | hold
  · cases hreg
  · exact h q hold

theorem ofDepth (fs : FS) (d : Path) : DirsBelow fs d (fs.depth + 1) := by
  intro q hq
  have hlen := fs.length_le_depth (fs.get_ne_none hq)
  rw [List.length_append] at hlen
  omega

end DirsBelow

theorem opendir_noLink (h : NoLink fs p) : fs.opendir p = none ∨ fs.opendir p = some p ∧ fs.kind p = some .dir := by
  rw [FS.opendir]
  rcases h.resolve with hnone | hsome
  · rw [hnone]
    exact .inl rfl
  · rw [hsome, Option.filter_some]
    split
    · next hdir => exact .inr ⟨rfl, of_decide_eq_true hdir⟩
    · exact .inl rfl

/-- The paths of `src` and `dst` go through no link, and the directories below them are less than `k` names deep. -/
structure Bounded (fs : FS) (src dst : Path) (k : Nat) : Prop where
  noLinkSrc : NoLink fs src
  noLinkDst : NoLink fs dst
  dirsSrc : DirsBelow fs src k
  dirsDst : DirsBelow fs dst k

namespace Bounded

/-- What is made below `dst` is no deeper below `src`, which may lie in `dst` but does not hold it. -/
theorem grows (B : Bounded fs src dst k) (hout : ¬ src <:+ dst) (h : Grows dst k fs fs') : Bounded fs' src dst k where
  noLinkSrc := h.noLink B.noLinkSrc
  noLinkDst := h.noLink B.noLinkDst
  dirsSrc q hq := by
    rcases h _ _ hq with hreg | hold | ⟨-, q', heq, hq'⟩
    · cases hreg
    · exact B.dirsSrc q hold
    · have hsuff : dst <:+ src := by
        have hd : dst <:+ q ++ src := heq ▸ List.suffix_append q' dst
        exact (List.suffix_or_suffix_of_suffix (List.suffix_append q src) hd).resolve_left hout
      have hlen := congrArg List.length heq
      rw [List.length_append, List.length_append] at hlen
      have hle := hsuff.length_le
      omega
  dirsDst q hq := by
    rcases h _ _ hq with hreg | hold | ⟨-, q', heq, hq'⟩
    · cases hreg
    · exact B.dirsDst q hold
    · rwa [List.append_cancel_right heq]

theorem entry (B : Bounded fs src dst (k + 1)) (hsrc : NoLink fs (n :: src)) (hdst : NoLink fs (n :: dst)) :
    Bounded fs (n :: src) (n :: dst) k :=
  ⟨hsrc, hdst, B.dirsSrc.entry n, B.dirsDst.entry n⟩

end Bounded

theorem not_cons_suffix_cons (hout : ¬ src <:+ dst) (n : Name) : ¬ n :: src <:+ n :: dst := by
  intro h
  rcases List.suffix_cons_iff.1 h with heq | h
  · exact hout ((List.cons.inj heq).2 ▸ List.suffix_refl _)
  · exact hout ((List.suffix_cons n src).trans h)

/-! ## Removing -/

/-- What is asked of `remove_directory`, for trees up to a depth. -/
def RemovesLive (rmdir : Path → Proc → Except Stop Proc) (k : Nat) : Prop :=
  ∀ p w, NoLink w.fs p → DirsBelow w.fs p k → Safe (fun w' => OnlyFiles w.fs w'.fs) (rmdir p w)

theorem removeEntry_safe {rec : Path → Proc → Except Stop Proc} (hrec : RemovesLive rec k) {v : Proc × Stat}
    (hp : NoLink v.1.fs p) (hdirs : DirsBelow v.1.fs p (k + 1)) (n : Name) :
    Safe (fun v' => OnlyFiles v.1.fs v'.1.fs) (removeEntry rec p n v) := by
  rw [removeEntry]
  split
  · next hdir =>
    have hlink : NoLink v.1.fs (n :: p) := hp.entry (hp.not_link v.2 (by rw [hdir]; exact nofun))
    exact (hrec (n :: p) v.1 hlink (hdirs.entry n)).bind fun w' hw' => hw'
  · exact OnlyFiles.remove v.1.fs (n :: p)

/-- By induction on the depth. -/
theorem removeLive_safe (env : Env) (listing : Proc → Proc → Path → List Dirent) (fuel : Nat) (hk : k < fuel) :
    RemovesLive (removeLive env listing fuel) k := by
  induction fuel generalizing k with
  | zero => exact absurd hk (Nat.not_lt_zero k)
  | succ fuel ih =>
    intro p w hp hdirs
    rw [removeLive]
    rcases opendir_noLink hp with hnone | ⟨hsome, hdir⟩
    · rw [hnone]
      trivial
    · rw [hsome]
      dsimp only
      obtain ⟨k, rfl⟩ := Nat.exists_eq_succ_of_ne_zero (Nat.ne_of_gt (hdirs.pos hdir))
      refine (Safe.eachLive (fun v : Proc × Stat => OnlyFiles w.fs v.1.fs) (fun n v hv => ?_) _ _ ?_).bind fun v hv => ?_
      · exact (removeEntry_safe (ih (by omega)) (hv.noLink hp) (hdirs.onlyFiles hv) n).mono fun v' hv' => hv.trans hv'
      · show OnlyFiles w.fs _
        rw [Proc.opened_fs]
        exact OnlyFiles.refl w.fs
      · show OnlyFiles w.fs _
        rw [Proc.call_fs, Proc.closed_fs]
        exact hv.trans (.remove v.1.fs p)

/-! ## When `dst` is not in `src` -/

/-- What is asked of `sync_directories`, for trees up to a depth. -/
def SyncsLive (sync : Path → Path → Proc → Except Stop Proc) (k : Nat) : Prop :=
  ∀ src dst w, ¬ src <:+ dst → Bounded w.fs src dst k → Safe (fun w' => Grows dst k w.fs w'.fs) (sync src dst w)

/-- `opendir` fails, and the process exits. -/
def ExitsOff (sync : Path → Path → Proc → Except Stop Proc) : Prop :=
  ∀ src dst w, NoLink w.fs src → w.fs.kind src ≠ some .dir → Safe (fun _ => False) (sync src dst w)

/-- The recursion of a round, with the destination that it has prepared. The source is a directory, or it is not there
and the `struct stat` is that of an earlier round. -/
theorem recursion_safe {rec : Path → Path → Proc → Except Stop Proc} (hrec : SyncsLive rec k) (hexit : ExitsOff rec)
    {w w₁ : Proc} (B : Bounded w.fs src dst (k + 1)) (hout : ¬ src <:+ dst)
    (hsrc : w.fs.kind (n :: src) ≠ some .symlink) (hmade : Grows (n :: dst) 1 w.fs w₁.fs)
    (hdst : NoLink w₁.fs (n :: dst)) :
    Safe (fun w' => Grows dst (k + 1) w.fs w'.fs) (rec (n :: src) (n :: dst) w₁) := by
  have hlink := B.noLinkSrc.entry hsrc
  have hout' := not_cons_suffix_cons hout n
  by_cases hdir : w.fs.kind (n :: src) = some .dir
  · have hk : 0 < k := (B.dirsSrc.entry n).pos hdir
    have hmade' : Grows dst (k + 1) w.fs w₁.fs := hmade.entry.mono (by omega)
    have B₁ := (B.grows hout hmade').entry (hmade.noLink hlink) hdst
    exact (hrec _ _ w₁ hout' B₁).mono fun w' hw' => hmade'.trans hw'.entry
  · refine (hexit _ (n :: dst) w₁ (hmade.noLink hlink) fun hdir₁ => ?_).mono fun w' hfalse => hfalse.elim
    rcases hmade _ _ hdir₁ with hreg | hold | ⟨-, q, heq, hq⟩
    · cases hreg
    · exact hdir hold
    · obtain rfl : q = [] := List.eq_nil_of_length_eq_zero (by omega)
      exact hout' (heq ▸ List.suffix_refl _)

/-- A round of the first loop. -/
theorem syncEntry_safe (env : Env) {rec : Path → Path → Proc → Except Stop Proc} (hrec : SyncsLive rec k)
    (hexit : ExitsOff rec) {v : Vars} (B : Bounded v.w.fs src dst (k + 1)) (hout : ¬ src <:+ dst) (n : Name) :
    Safe (fun v' => Grows dst (k + 1) v.w.fs v'.w.fs) (syncEntry env rec src dst n v) := by
  have hstat := B.noLinkDst.not_link (n := n) { v.dstStat with kind := none, perm := 0 }
  rw [syncEntry]
  dsimp only
  split
  · exact (OnlyFiles.syncReg env _ _ _ _ v.w).grows dst _
  · split
    · next hdir =>
      have hsrc : v.w.fs.kind (n :: src) ≠ some .symlink := B.noLinkSrc.not_link v.srcStat (by rw [hdir]; exact nofun)
      split
      · next hdst =>
        have hlink := B.noLinkDst.entry (hstat (by rw [hdst]; exact nofun))
        exact (recursion_safe hrec hexit B hout hsrc (.refl _ _ _) hlink).bind fun w' hw' => hw'
      · split
        · next hdst =>
          have hlink := B.noLinkDst.entry (hstat (by rw [hdst]; exact nofun))
          have hmkdir := Grows.mkdir (n := n) B.noLinkDst
            (((v.w.fs.lstat (n :: src)).getD v.srcStat).perm &&& ~~~env.umask)
          exact (recursion_safe hrec hexit B hout hsrc hmkdir (hmkdir.noLink hlink)).bind fun w' hw' => hw'
        · -- removed first
          have hremove := OnlyFiles.remove v.w.fs (n :: dst)
          have hmkdir := Grows.mkdir (n := n) (hremove.noLink B.noLinkDst)
            (((v.w.fs.lstat (n :: src)).getD v.srcStat).perm &&& ~~~env.umask)
          exact (recursion_safe hrec hexit B hout hsrc ((hremove.grows _ _).trans hmkdir)
            (hmkdir.noLink B.noLinkDst.remove.noLink)).bind fun w' hw' => hw'
    · exact .refl dst _ v.w.fs

/-- A round of the second loop. -/
theorem deleteEntry_safe {rmdir : Path → Proc → Except Stop Proc} (hrmdir : RemovesLive rmdir k) {v : Vars}
    (hdst : NoLink v.w.fs dst) (hdirs : DirsBelow v.w.fs dst (k + 1)) (n : Name) :
    Safe (fun v' => OnlyFiles v.w.fs v'.w.fs) (deleteEntry rmdir src dst n v) := by
  rw [deleteEntry]
  dsimp only
  split
  · exact OnlyFiles.refl v.w.fs
  · split
    · next hdir =>
      have hlink := hdst.entry (hdst.not_link (n := n) v.dstStat (by rw [hdir]; decide))
      exact (hrmdir (n :: dst) (v.w.print "[-]" (n :: dst)) hlink (hdirs.entry n)).bind fun w' hw' => hw'
    · exact OnlyFiles.remove v.w.fs (n :: dst)

theorem syncLive_exits (env : Env) (listing : Proc → Proc → Path → List Dirent) (fuel : Nat) :
    ExitsOff (syncLive env listing (fuel + 1)) := by
  intro src dst w hlink hdir
  rw [syncLive]
  rcases opendir_noLink hlink with hnone | ⟨-, hsome⟩
  · rw [hnone]
    trivial
  · exact absurd hsome hdir

/-- By induction on the depth. -/
theorem syncLive_safe (env : Env) (listing : Proc → Proc → Path → List Dirent) (fuel : Nat) (hk : k < fuel) :
    SyncsLive (syncLive env listing fuel) k := by
  induction fuel generalizing k with
  | zero => exact absurd hk (Nat.not_lt_zero k)
  | succ fuel ih =>
    intro src dst w hout B
    by_cases hdir : w.fs.kind src = some .dir
    · obtain ⟨k, rfl⟩ := Nat.exists_eq_succ_of_ne_zero (Nat.ne_of_gt (B.dirsSrc.pos hdir))
      obtain ⟨fuel, rfl⟩ := Nat.exists_eq_succ_of_ne_zero (n := fuel) (by omega)
      rw [syncLive, opendir_dir hdir]
      rcases opendir_noLink B.noLinkDst with hnone | ⟨hsome, -⟩
      · rw [hnone]
        trivial
      · rw [hsome]
        dsimp only
        refine (Safe.eachLive (fun v : Vars => Grows dst (k + 1) w.fs v.w.fs) (fun n v hv => ?_) _ _ ?_).bind
          fun v hv => (Safe.eachLive (fun v' : Vars => Grows dst (k + 1) w.fs v'.w.fs) (fun n v' hv' => ?_) _ _ hv).bind
            fun v' hv' => ?_
        · exact (syncEntry_safe env (ih (by omega)) (syncLive_exits env listing fuel) (B.grows hout hv) hout n).mono
            fun v' hv' => hv.trans hv'
        · show Grows dst (k + 1) w.fs _
          rw [Proc.opened_fs, Proc.opened_fs]
          exact .refl _ _ _
        · have B' := B.grows hout hv'
          exact (deleteEntry_safe (removeLive_safe env listing _ (by omega)) B'.noLinkDst B'.dirsDst n).mono
            fun v'' hv'' => hv'.trans (hv''.grows _ _)
        · show Grows dst (k + 1) w.fs _
          rw [Proc.closed_fs, Proc.closed_fs]
          exact hv'
    · exact (syncLive_exits env listing fuel src dst w B.noLinkSrc hdir).mono fun w' hfalse => hfalse.elim

/-! ## When `dst` is `src` -/

/-- A loop whose rounds leave the files as they are; a name it gets is there. -/
theorem Safe.eachLive_same (get : σ → FS) (fs : FS) {f : Name → σ → Except Stop σ}
    (hf : ∀ n s, get s = fs → fs.get (n :: p) ≠ none → Safe (fun s' => get s' = fs) (f n s)) (items : List Dirent)
    (was : List FS) (hwas : ∀ fs' ∈ was, fs' = fs) {s : σ} (hs : get s = fs) :
    Safe (fun s' => get s' = fs) (A9.eachLive get p f was items s) := by
  induction items generalizing was s with
  | nil => exact hs
  | cons item items ih =>
    have hwas' : ∀ fs' ∈ get s :: was, fs' = fs := List.forall_mem_cons.2 ⟨hs, hwas⟩
    cases item with
    | self => exact ih _ hwas' hs
    | parent => exact ih _ hwas' hs
    | entry n =>
      rw [A9.eachLive]
      split
      · next hthere =>
        obtain ⟨fs', hmem, hne⟩ := hthere
        rw [hwas' fs' hmem] at hne
        exact (hf n s hs hne).bind fun t ht => ih _ hwas' ht
      · exact ih _ hwas' hs

/-- Every file is the same as itself, and every directory is there. -/
theorem syncEntry_self {rec : Path → Path → Proc → Except Stop Proc} {v : Vars} (hd : v.w.fs.kind d = some .dir)
    (hn : v.w.fs.get (n :: d) ≠ none)
    (hrec : v.w.fs.kind (n :: d) = some .dir → Safe (fun w' => w'.fs = v.w.fs) (rec (n :: d) (n :: d) v.w)) :
    Safe (fun v' => v'.w.fs = v.w.fs) (syncEntry env rec d d n v) := by
  obtain ⟨o, ho⟩ := Option.ne_none_iff_exists'.1 hn
  have hk : v.w.fs.kind (n :: d) = some o.kind := kind_of_get ho
  rw [syncEntry]
  simp only [lstat_entry hd, ho, Option.map_some, Option.getD_some, o.stat_kind]
  split
  · next hreg =>
    show (syncReg env _ _ _ _ v.w).fs = _
    rw [syncReg, o.stat_kind, if_pos hreg, if_pos ⟨rfl, rfl⟩]
  · split
    · next hdir => exact (hrec (hk.trans hdir)).bind fun w' hw' => hw'
    · exact rfl

/-- Nothing is changed. By induction on the depth. -/
theorem syncLive_self (env : Env) (listing : Proc → Proc → Path → List Dirent) (fuel : Nat) (hk : k < fuel) {w : Proc}
    (hd : w.fs.kind d = some .dir) (hdirs : DirsBelow w.fs d k) :
    Safe (fun w' => w'.fs = w.fs) (syncLive env listing fuel d d w) := by
  induction fuel generalizing k d w with
  | zero => exact absurd hk (Nat.not_lt_zero k)
  | succ fuel ih =>
    obtain ⟨k, rfl⟩ := Nat.exists_eq_succ_of_ne_zero (Nat.ne_of_gt (hdirs.pos hd))
    have hopened : ((w.opened (some d)).opened (some d)).fs = w.fs := by rw [Proc.opened_fs, Proc.opened_fs]
    rw [syncLive, opendir_dir hd]
    dsimp only
    refine (Safe.eachLive_same (fun v : Vars => v.w.fs) w.fs (fun n v hv hn => ?_) _ _ ?_ hopened).bind
      fun v hv => (Safe.eachLive_same (fun v : Vars => v.w.fs) w.fs (fun n v' hv' hn => ?_) _ _ ?_ hv).bind
        fun v' hv' => ?_
    · rw [← hv] at hd hn hdirs ⊢
      exact syncEntry_self hd hn fun hdir => ih (by omega) hdir (hdirs.entry n)
    · rintro fs' hmem
      rw [List.mem_singleton.1 hmem, hopened]
    · rw [← hv'] at hd hn ⊢
      obtain ⟨o, ho⟩ := Option.ne_none_iff_exists'.1 hn
      rw [deleteEntry, lstat_entry hd, ho]
      exact rfl
    · rintro fs' hmem
      rw [List.mem_singleton.1 hmem, hopened]
    · show Proc.fs _ = _
      rw [Proc.closed_fs, Proc.closed_fs, hv']

end OsLab.A9
