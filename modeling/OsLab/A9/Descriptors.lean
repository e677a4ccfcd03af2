import Mathlib.Algebra.Order.Ring.Int
import OsLab.A9.Frame
import OsLab.A9.Result

/-!
# Open streams and descriptors (`A9/rsync.c`)

| here | there |
| --- | --- |
| `Proc.fds` | the streams and descriptors that have been opened and not closed |
| `removePoints` | the points of `remove_directory`, with the depth of the recursion |
| `copyPoints`, `syncRegPoints`, `syncEntryPoints`, `deleteEntryPoints`, `syncPoints` | those of `sync_directories` |
| `changeEntryPoints`, `changePoints` | those of `change_timestamps_and_perms` |

The points are those behind an `opendir`, `open`, `close` or `closedir`; between two of them nothing is opened or
closed. A function at depth `depth` calls the others at depth `depth + 1`.

The first pass closes all that it opens (`syncDirectories_fds`). The second pass has no `closedir`: it returns with the
streams of all its calls open (`changeTimestampsAndPerms_leaks`).
-/

namespace OsLab.A9

open FileSys FS

def Event.opens : Event → Bool
  | .opened _ => true
  | _ => false

def Event.closes : Event → Bool
  | .closed _ => true
  | _ => false

namespace Proc

def fds (w : Proc) : Int := w.log.countP Event.opens - w.log.countP Event.closes

@[simp] theorem fds_call (w : Proc) (f : FS → FS) : (w.call f).fds = w.fds := rfl
@[simp] theorem fds_print (w : Proc) (mark : String) (path : Path) : (w.print mark path).fds = w.fds := rfl

theorem fds_opened (w : Proc) (fd : Option Path) : (w.opened fd).fds = w.fds + fd.isSome.toNat := by
  cases fd with
  | none => exact (Int.add_zero _).symm
  | some path =>
    rw [opened, fds, fds]
    dsimp only
    rw [List.countP_cons_of_pos rfl, List.countP_cons_of_neg Bool.false_ne_true, Option.isSome_some, Bool.toNat_true]
    omega

theorem fds_closed (w : Proc) (fd : Option Path) : (w.closed fd).fds = w.fds - fd.isSome.toNat := by
  cases fd with
  | none => exact (Int.sub_zero _).symm
  | some path =>
    rw [closed, fds, fds]
    dsimp only
    rw [List.countP_cons_of_neg Bool.false_ne_true, List.countP_cons_of_pos rfl, Option.isSome_some, Bool.toNat_true]
    omega

end Proc

/-- A point of a run. -/
structure Point where
  depth : Nat
  w : Proc

/-! ## The points of a run -/

def eachEntryPoints {σ : Type} (f : Name → σ → Except Stop σ) (points : Name → σ → List Point) :
    List Dirent → σ → List Point
  | [], _ => []
  | .entry n :: items, s =>
    points n s ++ match f n s with
      | .ok s' => eachEntryPoints f points items s'
      | .error _ => []
  | .self :: items, s => eachEntryPoints f points items s
  | .parent :: items, s => eachEntryPoints f points items s

def removeEntryPoints (rec : Path → Proc → List Point) (path : Path) (n : Name) (v : Proc × Stat) : List Point :=
  if ((v.1.fs.lstat (n :: path)).getD v.2).kind = some .dir then rec (n :: path) v.1 else []

def removePoints (env : Env) : Nat → Nat → Path → Proc → List Point
  | 0, _, _, _ => []
  | fuel + 1, depth, path, w =>
    match w.fs.opendir path with
    | none => []
    | some dir =>
      let w := w.opened dir
      let items := env.readdir w.fs w.fs dir
      ⟨depth, w⟩ :: eachEntryPoints (removeEntry (removeDirectory env fuel) path)
          (removeEntryPoints (removePoints env fuel (depth + 1)) path) items (w, env.garbage w.fs path) ++
        match eachEntry (removeEntry (removeDirectory env fuel) path) items (w, env.garbage w.fs path) with
        | .ok v => [⟨depth, v.1.closed dir⟩]
        | .error _ => []

def copyPoints (env : Env) (depth : Nat) (srcPath dstPath : Path) (srcStat : Stat) (w : Proc) : List Point :=
  let srcFd := w.fs.openRead srcPath
  let (dstFd, fs) := w.fs.openWrite dstPath (srcStat.perm &&& ~~~env.umask) (env.now w.fs dstPath)
  let w₁ := w.opened srcFd
  let w₂ := (w₁.opened dstFd).call fun _ => fs
  let w₃ := (w₂.call (copyLoop env srcFd dstFd (srcStat.size + 1) 0)).closed srcFd
  [⟨depth, w₁⟩, ⟨depth, w₂⟩, ⟨depth, w₃⟩, ⟨depth, w₃.closed dstFd⟩]

def syncRegPoints (env : Env) (depth : Nat) (srcPath dstPath : Path) (srcStat dstStat : Stat) (w : Proc) :
    List Point :=
  if dstStat.kind = some .reg then
    if srcStat.size = dstStat.size ∧ srcStat.mtime = dstStat.mtime then []
    else copyPoints env depth srcPath dstPath srcStat (w.print "[o]" dstPath)
  else if dstStat.kind = none then copyPoints env depth srcPath dstPath srcStat (w.print "[+]" dstPath)
  else
    copyPoints env depth srcPath dstPath srcStat
      (((w.print "[-]" dstPath).call (FS.remove · dstPath)).print "[+]" dstPath)

def syncEntryPoints (env : Env) (rec : Path → Path → Proc → List Point) (depth : Nat) (src dst : Path) (n : Name)
    (v : Vars) : List Point :=
  let w := v.w
  let srcPath := n :: src
  let dstPath := n :: dst
  let srcStat := (w.fs.lstat srcPath).getD v.srcStat
  let dstStat := (w.fs.lstat dstPath).getD { v.dstStat with kind := none, perm := 0 }
  if srcStat.kind = some .reg then syncRegPoints env depth srcPath dstPath srcStat dstStat w
  else if srcStat.kind = some .dir then
    if dstStat.kind = some .dir then rec srcPath dstPath w
    else if dstStat.kind = none then
      rec srcPath dstPath ((w.print "[+]" dstPath).call (FS.mkdir · dstPath (srcStat.perm &&& ~~~env.umask)))
    else
      let w := (w.print "[-]" dstPath).call (FS.remove · dstPath)
      rec srcPath dstPath ((w.print "[+]" dstPath).call (FS.mkdir · dstPath (srcStat.perm &&& ~~~env.umask)))
  else []

def deleteEntryPoints (rmdir : Path → Proc → List Point) (src dst : Path) (n : Name) (v : Vars) : List Point :=
  let dstStat := (v.w.fs.lstat (n :: dst)).getD v.dstStat
  match v.w.fs.lstat (n :: src) with
  | some _ => []
  | none => if dstStat.kind = some .dir then rmdir (n :: dst) (v.w.print "[-]" (n :: dst)) else []

def syncPoints (env : Env) : Nat → Nat → Path → Path → Proc → List Point
  | 0, _, _, _, _ => []
  | fuel + 1, depth, src, dst, w =>
    let srcDir := w.fs.opendir src
    let dstDir := w.fs.opendir dst
    let w₁ := w.opened srcDir
    let w₂ := w₁.opened dstDir
    ⟨depth, w₁⟩ :: ⟨depth, w₂⟩ :: match srcDir, dstDir with
    | none, _ => []
    | _, none => []
    | some srcDir, some dstDir =>
      let items := env.readdir w₂.fs w₂.fs srcDir
      let v : Vars := ⟨w₂, env.garbage w₂.fs src, env.garbage w₂.fs dst⟩
      eachEntryPoints (syncEntry env (syncDirectories env fuel) src dst)
          (syncEntryPoints env (syncPoints env fuel (depth + 1)) depth src dst) items v ++
        match eachEntry (syncEntry env (syncDirectories env fuel) src dst) items v with
        | .error _ => []
        | .ok v =>
          let items := env.readdir w₂.fs v.w.fs dstDir
          eachEntryPoints (deleteEntry (removeDirectory env fuel) src dst)
              (deleteEntryPoints (removePoints env fuel (depth + 1)) src dst) items v ++
            match eachEntry (deleteEntry (removeDirectory env fuel) src dst) items v with
            | .error _ => []
            | .ok v => [⟨depth, v.w.closed srcDir⟩, ⟨depth, (v.w.closed srcDir).closed dstDir⟩]

def changeEntryPoints (rec : Path → Path → Proc → List Point) (src dst : Path) (n : Name) (v : Vars) : List Point :=
  let srcStat := (v.w.fs.lstat (n :: src)).getD v.srcStat
  let dstStat := (v.w.fs.lstat (n :: dst)).getD v.dstStat
  if srcStat.kind = some .dir ∧ dstStat.kind = some .dir then rec (n :: src) (n :: dst) v.w else []

def changePoints (env : Env) : Nat → Nat → Path → Path → Proc → List Point
  | 0, _, _, _, _ => []
  | fuel + 1, depth, src, dst, w =>
    let srcDir := w.fs.opendir src
    let dstDir := w.fs.opendir dst
    let w₁ := w.opened srcDir
    let w₂ := w₁.opened dstDir
    ⟨depth, w₁⟩ :: ⟨depth, w₂⟩ :: match srcDir with
    | none => []
    | some srcDir =>
      eachEntryPoints (changeEntry (changeTimestampsAndPerms env fuel) src dst)
        (changeEntryPoints (changePoints env fuel (depth + 1)) src dst) (env.readdir w₂.fs w₂.fs srcDir)
        ⟨w₂, env.garbage w₂.fs src, env.garbage w₂.fs dst⟩

def mainPoints (env : Env) (fuel : Nat) (src dst : Path) (w : Proc) : List Point :=
  syncPoints env fuel 0 src dst w ++
    match syncDirectories env fuel src dst w with
    | .ok w => changePoints env fuel 0 src dst w
    | .error _ => []

variable {σ : Type} {env : Env} {src dst path : Path} {n : Name} {w w' : Proc}

/-! ## Loops -/

/-- What the rounds keep, the loop keeps. -/
theorem eachEntry_keeps {f : Name → σ → Except Stop σ} (I : σ → Prop) (hf : ∀ n s s', I s → f n s = .ok s' → I s')
    {items : List Dirent} {s s' : σ} (hs : I s) (h : eachEntry f items s = .ok s') : I s' := by
  induction items generalizing s with
  | nil =>
    cases h
    exact hs
  | cons item items ih =>
    cases item with
    | self | parent => exact ih hs h
    | entry n =>
      obtain ⟨t, ht, h⟩ := bind_eq_ok.1 h
      exact ih (hf n s t hs ht) h

theorem eachEntryPoints_all {f : Name → σ → Except Stop σ} {points : Name → σ → List Point} (I : σ → Prop)
    {Q : Point → Prop} (hf : ∀ n s s', I s → f n s = .ok s' → I s') (hpoints : ∀ n s, I s → ∀ x ∈ points n s, Q x)
    {items : List Dirent} {s : σ} (hs : I s) : ∀ x ∈ eachEntryPoints f points items s, Q x := by
  induction items generalizing s with
  | nil => exact fun x hx => absurd hx List.not_mem_nil
  | cons item items ih =>
    intro x hx
    cases item with
    | self | parent => exact ih hs x hx
    | entry n =>
      rcases List.mem_append.1 hx with hx | hx
      · exact hpoints n s hs x hx
      · cases hn : f n s with
        | error stop =>
          rw [hn] at hx
          cases hx
        | ok t =>
          rw [hn] at hx
          exact ih (hf n s t hs hn) x hx

/-- A loop keeps as many open as its rounds do. -/
theorem eachEntry_fds {f : Name → σ → Except Stop σ} (proc : σ → Proc)
    (hf : ∀ n s s', f n s = .ok s' → (proc s').fds = (proc s).fds) {items : List Dirent} {s s' : σ}
    (h : eachEntry f items s = .ok s') : (proc s').fds = (proc s).fds :=
  eachEntry_keeps (fun t => (proc t).fds = (proc s).fds) (fun n t t' ht hn => (hf n t t' hn).trans ht) rfl h

theorem eachEntryPoints_fds {f : Name → σ → Except Stop σ} {points : Name → σ → List Point} (proc : σ → Proc)
    (hf : ∀ n s s', f n s = .ok s' → (proc s').fds = (proc s).fds) {k : Int} {Q : Point → Prop}
    (hpoints : ∀ n s, (proc s).fds = k → ∀ x ∈ points n s, Q x) {items : List Dirent} {s : σ} (hk : (proc s).fds = k) :
    ∀ x ∈ eachEntryPoints f points items s, Q x :=
  eachEntryPoints_all (fun t => (proc t).fds = k) (fun n t t' ht hn => (hf n t t' hn).trans ht) hpoints hk

/-! ## The first pass closes what it opens -/

theorem copyFile_fds (env : Env) (srcPath dstPath : Path) (srcStat : Stat) (w : Proc) :
    (copyFile env srcPath dstPath srcStat w).fds = w.fds := by
  simp only [copyFile, Proc.fds_closed, Proc.fds_call, Proc.fds_opened]
  omega

theorem syncReg_fds (env : Env) (srcPath dstPath : Path) (srcStat dstStat : Stat) (w : Proc) :
    (syncReg env srcPath dstPath srcStat dstStat w).fds = w.fds := by
  rw [syncReg]
  split
  · split
    · rfl
    · rw [Proc.fds_call, Proc.fds_call, copyFile_fds, Proc.fds_print]
  · split
    · rw [copyFile_fds, Proc.fds_print]
    · rw [copyFile_fds, Proc.fds_print, Proc.fds_call, Proc.fds_print]

theorem removeEntry_fds {rec : Path → Proc → Except Stop Proc} (hrec : ∀ p w w', rec p w = .ok w' → w'.fds = w.fds)
    {v v' : Proc × Stat} (h : removeEntry rec path n v = .ok v') : v'.1.fds = v.1.fds := by
  rw [removeEntry] at h
  split at h
  · obtain ⟨w', hw', h⟩ := bind_eq_ok.1 h
    cases h
    exact hrec _ _ w' hw'
  · cases h
    rfl

theorem removeDirectory_fds (env : Env) (fuel : Nat) (path : Path) (w w' : Proc)
    (h : removeDirectory env fuel path w = .ok w') : w'.fds = w.fds := by
  induction fuel generalizing path w w' with
  | zero => cases h
  | succ fuel ih =>
    rw [removeDirectory] at h
    split at h
    · cases h
    · next dir hdir =>
      obtain ⟨v, hv, h⟩ := bind_eq_ok.1 h
      cases h
      have hloop := eachEntry_fds Prod.fst (fun n v v' => removeEntry_fds ih) hv
      rw [Proc.fds_call, Proc.fds_closed, hloop, Proc.fds_opened]
      omega

theorem syncEntry_fds {rec : Path → Path → Proc → Except Stop Proc}
    (hrec : ∀ s d w w', rec s d w = .ok w' → w'.fds = w.fds) {v v' : Vars}
    (h : syncEntry env rec src dst n v = .ok v') : v'.w.fds = v.w.fds := by
  rw [syncEntry] at h
  dsimp only at h
  split at h
  · cases h
    exact syncReg_fds env _ _ _ _ v.w
  · split at h
    · split at h
      · obtain ⟨w', hw', h⟩ := bind_eq_ok.1 h
        cases h
        exact hrec _ _ _ w' hw'
      · split at h
        · obtain ⟨w', hw', h⟩ := bind_eq_ok.1 h
          cases h
          have hfds := hrec _ _ _ w' hw'
          exact hfds
        · obtain ⟨w', hw', h⟩ := bind_eq_ok.1 h
          cases h
          have hfds := hrec _ _ _ w' hw'
          exact hfds
    · cases h
      rfl

theorem deleteEntry_fds {rmdir : Path → Proc → Except Stop Proc}
    (hrmdir : ∀ p w w', rmdir p w = .ok w' → w'.fds = w.fds) {v v' : Vars}
    (h : deleteEntry rmdir src dst n v = .ok v') : v'.w.fds = v.w.fds := by
  rw [deleteEntry] at h
  dsimp only at h
  split at h
  · cases h
    rfl
  · split at h
    · obtain ⟨w', hw', h⟩ := bind_eq_ok.1 h
      cases h
      have hfds := hrmdir _ _ w' hw'
      exact hfds
    · cases h
      rfl

/-- **`sync_directories` returns with as many open as it was called with.** -/
theorem syncDirectories_fds (env : Env) (fuel : Nat) (src dst : Path) (w w' : Proc)
    (h : syncDirectories env fuel src dst w = .ok w') : w'.fds = w.fds := by
  induction fuel generalizing src dst w w' with
  | zero => cases h
  | succ fuel ih =>
    rw [syncDirectories] at h
    split at h
    · cases h
    · cases h
    · next srcDir dstDir hsrc hdst =>
      rw [hsrc, hdst] at h
      obtain ⟨v, hv, h⟩ := bind_eq_ok.1 h
      obtain ⟨v', hv', h⟩ := bind_eq_ok.1 h
      cases h
      have hfirst := eachEntry_fds Vars.w (fun n v v' => syncEntry_fds ih) hv
      have hsecond := eachEntry_fds Vars.w (fun n v v' => deleteEntry_fds (removeDirectory_fds env fuel)) hv'
      rw [Proc.fds_closed, Proc.fds_closed, hsecond, hfirst, Proc.fds_opened, Proc.fds_opened]
      omega

/-! ## The points of the first pass -/

/-- From `k` on, `c` for each level from `depth` on and `e` besides. -/
def Within (c e : Int) (depth : Nat) (k : Int) (x : Point) : Prop :=
  depth ≤ x.depth ∧ x.w.fds ≤ k + c * (x.depth - depth + 1) + e

theorem removePoints_within (env : Env) (fuel depth : Nat) (path : Path) (w : Proc) :
    ∀ x ∈ removePoints env fuel depth path w, Within 1 0 depth w.fds x := by
  induction fuel generalizing depth path w with
  | zero => exact fun x hx => absurd hx List.not_mem_nil
  | succ fuel ih =>
    intro x hx
    rw [removePoints] at hx
    split at hx
    · cases hx
    · next dir hdir =>
      have hopen : (w.opened (some dir)).fds = w.fds + 1 := w.fds_opened _
      have hround : ∀ n v v', removeEntry (removeDirectory env fuel) path n v = .ok v' → v'.1.fds = v.1.fds :=
        fun n v v' => removeEntry_fds (removeDirectory_fds env fuel)
      rcases List.mem_append.1 hx with hx | hx
      · rcases List.mem_cons.1 hx with rfl | hx
        · refine ⟨le_rfl, ?_⟩
          dsimp only
          omega
        · refine eachEntryPoints_fds Prod.fst hround (fun n v hv x hx => ?_) hopen x hx
          rw [removeEntryPoints] at hx
          split at hx
          · obtain ⟨hdepth, hle⟩ := ih (depth + 1) (n :: path) v.1 x hx
            refine ⟨Nat.le_of_succ_le hdepth, ?_⟩
            omega
          · cases hx
      · split at hx
        · next v hv =>
          obtain rfl := List.mem_singleton.1 hx
          have hloop := eachEntry_fds Prod.fst hround hv
          refine ⟨le_rfl, ?_⟩
          dsimp only at hloop ⊢
          rw [Proc.fds_closed, hloop, hopen]
          omega
        · cases hx

/-- The two descriptors of a copy, besides the two streams of the level. -/
theorem copyPoints_within {depth : Nat} {srcPath dstPath : Path} {srcStat : Stat} {k : Int} (hk : w.fds = k + 2) :
    ∀ x ∈ copyPoints env depth srcPath dstPath srcStat w, Within 2 2 depth k x := by
  have hsrc := Bool.toNat_le (w.fs.openRead srcPath).isSome
  have hdst := Bool.toNat_le
    (w.fs.openWrite dstPath (srcStat.perm &&& ~~~env.umask) (env.now w.fs dstPath)).1.isSome
  intro x hx
  simp only [copyPoints, List.mem_cons, List.not_mem_nil, or_false] at hx
  rcases hx with rfl | rfl | rfl | rfl
  all_goals
    refine ⟨le_rfl, ?_⟩
    simp only [Proc.fds_closed, Proc.fds_call, Proc.fds_opened]
    omega

theorem syncRegPoints_within {depth : Nat} {srcPath dstPath : Path} {srcStat dstStat : Stat} {k : Int}
    (hk : w.fds = k + 2) : ∀ x ∈ syncRegPoints env depth srcPath dstPath srcStat dstStat w, Within 2 2 depth k x := by
  rw [syncRegPoints]
  split
  · split
    · exact fun x hx => absurd hx List.not_mem_nil
    · exact copyPoints_within hk
  · split
    · exact copyPoints_within hk
    · exact copyPoints_within hk

/-- One level deeper, with two more open. -/
theorem Within.outer {depth : Nat} {k : Int} {x : Point} (h : Within 2 2 (depth + 1) (k + 2) x) : Within 2 2 depth k x := by
  obtain ⟨hdepth, hle⟩ := h
  refine ⟨Nat.le_of_succ_le hdepth, ?_⟩
  omega

theorem syncEntryPoints_within {rec : Path → Path → Proc → List Point} {depth : Nat} {k : Int}
    (hrec : ∀ s d w, ∀ x ∈ rec s d w, Within 2 2 (depth + 1) w.fds x) {v : Vars} (hk : v.w.fds = k + 2) :
    ∀ x ∈ syncEntryPoints env rec depth src dst n v, Within 2 2 depth k x := by
  have hrec' : ∀ w : Proc, w.fds = k + 2 → ∀ x ∈ rec (n :: src) (n :: dst) w, Within 2 2 depth k x :=
    fun w hw x hx => (hw ▸ hrec _ _ w x hx).outer
  rw [syncEntryPoints]
  dsimp only
  split
  · exact syncRegPoints_within hk
  · split
    · split
      · exact hrec' v.w hk
      · split
        · exact hrec' _ hk
        · exact hrec' _ hk
    · exact fun x hx => absurd hx List.not_mem_nil

theorem deleteEntryPoints_within {rmdir : Path → Proc → List Point} {depth : Nat} {k : Int}
    (hrmdir : ∀ p w, ∀ x ∈ rmdir p w, Within 1 0 (depth + 1) w.fds x) {v : Vars} (hk : v.w.fds = k + 2) :
    ∀ x ∈ deleteEntryPoints rmdir src dst n v, Within 2 2 depth k x := by
  rw [deleteEntryPoints]
  split
  · exact fun x hx => absurd hx List.not_mem_nil
  · split
    · intro x hx
      obtain ⟨hdepth, hle⟩ := hrmdir _ _ x hx
      rw [Proc.fds_print] at hle
      refine ⟨Nat.le_of_succ_le hdepth, ?_⟩
      omega
    · exact fun x hx => absurd hx List.not_mem_nil

/-- **At every point of `sync_directories`** two streams for each level are open, and the two files of a copy. -/
theorem syncPoints_within (env : Env) (fuel depth : Nat) (src dst : Path) (w : Proc) :
    ∀ x ∈ syncPoints env fuel depth src dst w, Within 2 2 depth w.fds x := by
  induction fuel generalizing depth src dst w with
  | zero => exact fun x hx => absurd hx List.not_mem_nil
  | succ fuel ih =>
    intro x hx
    have hsrc := Bool.toNat_le (w.fs.opendir src).isSome
    have hdst := Bool.toNat_le (w.fs.opendir dst).isSome
    have hopened := (w.opened (w.fs.opendir src)).fds_opened (w.fs.opendir dst)
    have hopened' := w.fds_opened (w.fs.opendir src)
    rw [syncPoints] at hx
    rcases List.mem_cons.1 hx with rfl | hx
    · refine ⟨le_rfl, ?_⟩
      dsimp only
      omega
    rcases List.mem_cons.1 hx with rfl | hx
    · refine ⟨le_rfl, ?_⟩
      dsimp only
      omega
    split at hx
    · cases hx
    · cases hx
    · next srcDir dstDir hsrcDir hdstDir =>
      rw [hsrcDir] at hopened'
      rw [hsrcDir, hdstDir] at hopened hx
      have hopen : ((w.opened (some srcDir)).opened (some dstDir)).fds = w.fds + 2 := by
        rw [hopened, hopened', Option.isSome_some, Option.isSome_some, Bool.toNat_true]
        omega
      have hfirst : ∀ n v v', syncEntry env (syncDirectories env fuel) src dst n v = .ok v' → v'.w.fds = v.w.fds :=
        fun n v v' => syncEntry_fds (syncDirectories_fds env fuel)
      have hsecond : ∀ n v v', deleteEntry (removeDirectory env fuel) src dst n v = .ok v' → v'.w.fds = v.w.fds :=
        fun n v v' => deleteEntry_fds (removeDirectory_fds env fuel)
      rcases List.mem_append.1 hx with hx | hx
      · exact eachEntryPoints_fds Vars.w hfirst (fun n v => syncEntryPoints_within (ih (depth + 1))) hopen x hx
      split at hx
      · cases hx
      · next v hv =>
        have hv' := (eachEntry_fds Vars.w hfirst hv).trans hopen
        rcases List.mem_append.1 hx with hx | hx
        · exact eachEntryPoints_fds Vars.w hsecond
            (fun n v => deleteEntryPoints_within (removePoints_within env fuel (depth + 1))) hv' x hx
        split at hx
        · cases hx
        · next v₂ hv₂ =>
          have hv₂' := (eachEntry_fds Vars.w hsecond hv₂).trans hv'
          simp only [List.mem_cons, List.not_mem_nil, or_false] at hx
          rcases hx with rfl | rfl
          all_goals
            refine ⟨le_rfl, ?_⟩
            simp only [Proc.fds_closed, hv₂', Option.isSome_some, Bool.toNat_true]
            omega

/-! ## The second pass closes nothing -/

theorem changeEntry_fds {rec : Path → Path → Proc → Except Stop Proc}
    (hrec : ∀ s d w w', rec s d w = .ok w' → w.fds ≤ w'.fds) {v v' : Vars}
    (h : changeEntry rec src dst n v = .ok v') : v.w.fds ≤ v'.w.fds := by
  rw [changeEntry] at h
  dsimp only at h
  split at h
  · split at h
    · cases h
      dsimp only
      split
      · split
        · exact le_rfl
        · exact le_rfl
      · split
        · exact le_rfl
        · exact le_rfl
    · cases h
      exact le_rfl
  · split at h
    · obtain ⟨w', hw', h⟩ := bind_eq_ok.1 h
      cases h
      exact hrec _ _ _ w' hw'
    · cases h
      exact le_rfl

/-- **`change_timestamps_and_perms` returns with more open than it was called with**, since no stream is closed. -/
theorem changeTimestampsAndPerms_leaks (env : Env) (fuel : Nat) (src dst : Path) (w w' : Proc)
    (h : changeTimestampsAndPerms env fuel src dst w = .ok w') : w.fds < w'.fds := by
  induction fuel generalizing src dst w w' with
  | zero => cases h
  | succ fuel ih =>
    rw [changeTimestampsAndPerms] at h
    split at h
    · cases h
    · next srcDir hsrc =>
      rw [hsrc] at h
      obtain ⟨v, hv, h⟩ := bind_eq_ok.1 h
      cases h
      have hloop := eachEntry_keeps
        (fun v => ((w.opened (some srcDir)).opened (w.fs.opendir dst)).fds ≤ v.w.fds)
        (fun n v v' hv hn => le_trans hv (changeEntry_fds (fun s d w w' hw => le_of_lt (ih s d w w' hw)) hn)) le_rfl hv
      rw [Proc.fds_opened, Proc.fds_opened, Option.isSome_some, Bool.toNat_true] at hloop
      omega

/-! ## A run -/

/-- At every point at most two for each level are open, and two more; and both passes return with as many open as
they were called with. -/
def Bounds (env : Env) (fuel : Nat) (src dst : Path) (w : Proc) : Prop :=
  (∀ x ∈ mainPoints env fuel src dst w, x.w.fds ≤ w.fds + 2 * (x.depth + 1) + 2) ∧
    ∃ w₁ w₂, syncDirectories env fuel src dst w = .ok w₁ ∧ w₁.fds = w.fds ∧
      changeTimestampsAndPerms env fuel src dst w₁ = .ok w₂ ∧ w₂.fds = w₁.fds

/-- A source and a destination apart from each other: the run ends. -/
theorem main_leaks (env : Env) {w : Proc} (hs : w.fs.kind src = some .dir) (hd : w.fs.kind dst = some .dir)
    (hap : Apart src dst) {fuel : Nat} (hfuel : w.fs.depth < fuel) :
    ∃ w₁ w₂, syncDirectories env fuel src dst w = .ok w₁ ∧
      changeTimestampsAndPerms env fuel src dst w₁ = .ok w₂ ∧ w₁.fds < w₂.fds := by
  obtain ⟨w₂, hw₂, -, -⟩ := main_updated env hs hd hap (.ofDepth w.fs src hfuel) (.ofDepth w.fs dst hfuel)
  obtain ⟨w₁, hw₁, hw₂⟩ := bind_eq_ok.1 hw₂
  exact ⟨w₁, w₂, hw₁, hw₂, changeTimestampsAndPerms_leaks env fuel src dst w₁ w₂ hw₂⟩

/-- **No run keeps its open descriptors bounded**: the first pass does, the second one never. -/
theorem descriptors_leak (env : Env) (fuel : Nat) (src dst : Path) (w : Proc) :
    (∀ x ∈ syncPoints env fuel 0 src dst w, x.w.fds ≤ w.fds + 2 * (x.depth + 1) + 2) ∧
      (∀ w₁, syncDirectories env fuel src dst w = .ok w₁ → w₁.fds = w.fds ∧
        ∀ w₂, changeTimestampsAndPerms env fuel src dst w₁ = .ok w₂ → w₁.fds < w₂.fds) ∧
      (w.fs.kind src = some .dir → w.fs.kind dst = some .dir → Apart src dst → w.fs.depth < fuel →
        ∃ w₁ w₂, syncDirectories env fuel src dst w = .ok w₁ ∧
          changeTimestampsAndPerms env fuel src dst w₁ = .ok w₂ ∧ w₁.fds < w₂.fds) ∧
      ¬ Bounds env fuel src dst w := by
  refine ⟨fun x hx => ?_, fun w₁ hw₁ => ⟨syncDirectories_fds env fuel src dst w w₁ hw₁, fun w₂ hw₂ => ?_⟩,
    fun hs hd hap hfuel => main_leaks env hs hd hap hfuel, ?_⟩
  · obtain ⟨-, hle⟩ := syncPoints_within env fuel 0 src dst w x hx
    omega
  · exact changeTimestampsAndPerms_leaks env fuel src dst w₁ w₂ hw₂
  · rintro ⟨-, w₁, w₂, -, -, hw₂, heq⟩
    exact ne_of_gt (changeTimestampsAndPerms_leaks env fuel src dst w₁ w₂ hw₂) heq

/-- Three directories in each: the streams of all four calls stay open. -/
theorem descriptors_leak_three :
    let w : Proc := ⟨.ofList [(["src"], .dir 0o755), (["a", "src"], .dir 0o755), (["b", "src"], .dir 0o755),
      (["c", "src"], .dir 0o755), (["dst"], .dir 0o755), (["a", "dst"], .dir 0o755), (["b", "dst"], .dir 0o755),
      (["c", "dst"], .dir 0o755)], []⟩
    (∃ x ∈ mainPoints (.listing 0o022) 4 ["src"] ["dst"] w, w.fds + 2 * (x.depth + 1) + 2 < x.w.fds) ∧
      (main (.listing 0o022) 4 ["src"] ["dst"] w).toOption.map Proc.fds = some 8 ∧
      ¬ Bounds (.listing 0o022) 4 ["src"] ["dst"] w := by
  intro w
  refine ⟨by decide +kernel, by decide +kernel, ?_⟩
  rintro ⟨-, w₁, w₂, -, -, hw₂, heq⟩
  exact ne_of_gt (changeTimestampsAndPerms_leaks _ 4 ["src"] ["dst"] w₁ w₂ hw₂) heq

end OsLab.A9
