import OsLab.Lib.FileSys

/-!
# One-way synchronisation of two directories (`A9/rsync.c`)

| here | there |
| --- | --- |
| `removeDirectory`, `removeEntry` | `remove_directory` (`:13-34`), one round of its loop |
| `syncDirectories`, `syncEntry`, `syncReg`, `deleteEntry` | `sync_directories` (`:37-188`), one round of its two loops, the regular files of the first |
| `copyFile`, `copyLoop` | the copy each of the three branches makes (`:85-95`, `:106-116`, `:127-137`) |
| `changeTimestampsAndPerms`, `changeEntry` | `change_timestamps_and_perms` (`:191-236`), one round of its loop |
| `main` | `main` (`:238-252`) after the check of `argc` |
| `eachEntry` | `while ((entry = readdir(dir)) != NULL)` with the `strcmp`s against `.` and `..` |

The recursion gets a fuel. The path buffers are as long as the paths need, descriptors do not run out, and no call on
what is there is refused; the atime that `utime` sets is not kept.
-/

namespace OsLab.A9

open FileSys

/-- What a run depends on besides the files. -/
structure Env where
  umask : BitVec 12
  /-- The mtime of a file that is written. -/
  now : FS → Path → Int
  /-- A `struct stat` on the stack before `lstat` fills it. -/
  garbage : FS → Path → Stat
  /-- What a stream returns that was opened on a directory of the first file system and is read from the
  second on, while only entries it has returned are removed. -/
  readdir : FS → FS → Path → List Dirent
  /-- What is there all the time is listed once. -/
  listed : ∀ fs fs' p n, fs.get (n :: p) ≠ none → fs'.get (n :: p) = fs.get (n :: p) →
    (readdir fs fs' p).count (.entry n) = 1
  /-- What is listed was there at some time. -/
  there : ∀ fs fs' p n, .entry n ∈ readdir fs fs' p → fs.get (n :: p) ≠ none ∨ fs'.get (n :: p) ≠ none

/-- Output, and the streams and descriptors that open and close. -/
inductive Event
  | printed (mark : String) (path : Path)
  | perror (text : String)
  | opened (path : Path)
  | closed (path : Path)
deriving DecidableEq

structure Proc where
  fs : FS
  /-- Latest first. -/
  log : List Event

namespace Proc

def call (w : Proc) (f : FS → FS) : Proc := { w with fs := f w.fs }

def print (w : Proc) (mark : String) (path : Path) : Proc := { w with log := .printed mark path :: w.log }

def perror (w : Proc) (text : String) : Proc := { w with log := .perror text :: w.log }

/-- `none` is what a failed call returns. -/
def opened (w : Proc) (fd : Option Path) : Proc :=
  match fd with
  | some path => { w with log := .opened path :: w.log }
  | none => w

def closed (w : Proc) (fd : Option Path) : Proc :=
  match fd with
  | some path => { w with log := .closed path :: w.log }
  | none => w

@[simp] theorem call_fs (w : Proc) (f : FS → FS) : (w.call f).fs = f w.fs := rfl
@[simp] theorem print_fs (w : Proc) (mark : String) (path : Path) : (w.print mark path).fs = w.fs := rfl
@[simp] theorem opened_fs (w : Proc) (fd : Option Path) : (w.opened fd).fs = w.fs := by cases fd <;> rfl
@[simp] theorem closed_fs (w : Proc) (fd : Option Path) : (w.closed fd).fs = w.fs := by cases fd <;> rfl

end Proc

/-- How a run ends early: `exit(1)`, `readdir(NULL)`, or the fuel. -/
inductive Stop
  | exit (w : Proc)
  | crash (w : Proc)
  | fuel

def eachEntry {σ : Type} (f : Name → σ → Except Stop σ) : List Dirent → σ → Except Stop σ
  | [], s => .ok s
  | .entry n :: items, s => f n s >>= eachEntry f items
  | .self :: items, s => eachEntry f items s
  | .parent :: items, s => eachEntry f items s

/-! ## `remove_directory` -/

/-- The state and `dir_stat`. -/
def removeEntry (rec : Path → Proc → Except Stop Proc) (path : Path) (n : Name) (v : Proc × Stat) :
    Except Stop (Proc × Stat) :=
  let dirStat := (v.1.fs.lstat (n :: path)).getD v.2
  if dirStat.kind = some .dir then do
    let w ← rec (n :: path) v.1
    return (w, dirStat)
  else
    return (v.1.call (FS.remove · (n :: path)), dirStat)

def removeDirectory (env : Env) : Nat → Path → Proc → Except Stop Proc
  | 0, _, _ => .error .fuel
  | fuel + 1, path, w =>
    match w.fs.opendir path with
    | none => .error (.crash w)
    | some dir => do
      let w := w.opened dir
      let v ← eachEntry (removeEntry (removeDirectory env fuel) path) (env.readdir w.fs w.fs dir)
        (w, env.garbage w.fs path)
      return (v.1.closed dir).call (FS.remove · path)

/-! ## `sync_directories` -/

def copyLoop (env : Env) (srcFd dstFd : Option Path) : Nat → Nat → FS → FS
  | 0, _, fs => fs
  | rounds + 1, off, fs =>
    let buf := fs.read srcFd off 1024
    if buf = [] then fs
    else copyLoop env srcFd dstFd rounds (off + buf.length) (fs.write dstFd buf (env.now fs (dstFd.getD [])))

/-- Each round of the loop but the last reads a byte at least. -/
def copyFile (env : Env) (srcPath dstPath : Path) (srcStat : Stat) (w : Proc) : Proc :=
  let srcFd := w.fs.openRead srcPath
  let (dstFd, fs) := w.fs.openWrite dstPath (srcStat.perm &&& ~~~env.umask) (env.now w.fs dstPath)
  let w := ((w.opened srcFd).opened dstFd).call fun _ => fs
  ((w.call (copyLoop env srcFd dstFd (srcStat.size + 1) 0)).closed srcFd).closed dstFd

/-- The regular file case (`:73-139`). -/
def syncReg (env : Env) (srcPath dstPath : Path) (srcStat dstStat : Stat) (w : Proc) : Proc :=
  if dstStat.kind = some .reg then
    if srcStat.size = dstStat.size ∧ srcStat.mtime = dstStat.mtime then w
    else
      (((copyFile env srcPath dstPath srcStat (w.print "[o]" dstPath)).call
        (FS.utime · dstPath srcStat.mtime)).call (FS.chmod · dstPath srcStat.perm))
  else if dstStat.kind = none then
    copyFile env srcPath dstPath srcStat (w.print "[+]" dstPath)
  else
    copyFile env srcPath dstPath srcStat
      (((w.print "[-]" dstPath).call (FS.remove · dstPath)).print "[+]" dstPath)

/-- The state and the two `struct stat`s of `sync_directories`. -/
structure Vars where
  w : Proc
  srcStat : Stat
  dstStat : Stat

/-- A round of the first loop (`:56-164`). -/
def syncEntry (env : Env) (rec : Path → Path → Proc → Except Stop Proc) (src dst : Path) (n : Name) (v : Vars) :
    Except Stop Vars := do
  let w := v.w
  let srcPath := n :: src
  let dstPath := n :: dst
  let srcStat := (w.fs.lstat srcPath).getD v.srcStat
  let dstStat := (w.fs.lstat dstPath).getD { v.dstStat with kind := none, perm := 0 }
  if srcStat.kind = some .reg then
    return ⟨syncReg env srcPath dstPath srcStat dstStat w, srcStat, dstStat⟩
  else if srcStat.kind = some .dir then
    if dstStat.kind = some .dir then
      return ⟨← rec srcPath dstPath w, srcStat, dstStat⟩
    else if dstStat.kind = none then
      let w := (w.print "[+]" dstPath).call (FS.mkdir · dstPath (srcStat.perm &&& ~~~env.umask))
      return ⟨← rec srcPath dstPath w, srcStat, dstStat⟩
    else
      let w := (w.print "[-]" dstPath).call (FS.remove · dstPath)
      let w := (w.print "[+]" dstPath).call (FS.mkdir · dstPath (srcStat.perm &&& ~~~env.umask))
      return ⟨← rec srcPath dstPath w, srcStat, dstStat⟩
  else
    return ⟨w, srcStat, dstStat⟩

/-- A round of the second loop (`:167-184`). -/
def deleteEntry (rmdir : Path → Proc → Except Stop Proc) (src dst : Path) (n : Name) (v : Vars) :
    Except Stop Vars :=
  let dstPath := n :: dst
  let srcPath := n :: src
  let dstStat := (v.w.fs.lstat dstPath).getD v.dstStat
  match v.w.fs.lstat srcPath with
  | some srcStat => return ⟨v.w, srcStat, dstStat⟩
  | none =>
    let w := v.w.print "[-]" dstPath
    if dstStat.kind = some .dir then do
      return ⟨← rmdir dstPath w, v.srcStat, dstStat⟩
    else
      return ⟨w.call (FS.remove · dstPath), v.srcStat, dstStat⟩

def syncDirectories (env : Env) : Nat → Path → Path → Proc → Except Stop Proc
  | 0, _, _, _ => .error .fuel
  | fuel + 1, src, dst, w =>
    let srcDir := w.fs.opendir src
    let dstDir := w.fs.opendir dst
    let w := (w.opened srcDir).opened dstDir
    match srcDir, dstDir with
    | none, _ => .error (.exit (w.perror "Error opening source directory"))
    | _, none => .error (.exit (w.perror "Error opening destination directory"))
    | some srcDir, some dstDir => do
      let v ← eachEntry (syncEntry env (syncDirectories env fuel) src dst) (env.readdir w.fs w.fs srcDir)
        ⟨w, env.garbage w.fs src, env.garbage w.fs dst⟩
      -- the stream of `dst` was opened before the first loop
      let v ← eachEntry (deleteEntry (removeDirectory env fuel) src dst) (env.readdir w.fs v.w.fs dstDir) v
      return (v.w.closed srcDir).closed dstDir

/-! ## `change_timestamps_and_perms` -/

def changeEntry (rec : Path → Path → Proc → Except Stop Proc) (src dst : Path) (n : Name) (v : Vars) :
    Except Stop Vars := do
  let srcPath := n :: src
  let dstPath := n :: dst
  let srcStat := (v.w.fs.lstat srcPath).getD v.srcStat
  let dstStat := (v.w.fs.lstat dstPath).getD v.dstStat
  if srcStat.kind = some .reg then
    if dstStat.kind = some .reg then
      let w := if srcStat.mtime ≠ dstStat.mtime then
          (v.w.print "[t]" dstPath).call (FS.utime · dstPath srcStat.mtime)
        else v.w
      -- both are regular files, so `st_mode` differs in the permissions
      let w := if srcStat.perm ≠ dstStat.perm then
          (w.print "[p]" dstPath).call (FS.chmod · dstPath srcStat.perm)
        else w
      return ⟨w, srcStat, dstStat⟩
    else return ⟨v.w, srcStat, dstStat⟩
  else if srcStat.kind = some .dir ∧ dstStat.kind = some .dir then
    return ⟨← rec srcPath dstPath v.w, srcStat, dstStat⟩
  else return ⟨v.w, srcStat, dstStat⟩

/-- The two streams are not closed, and that of `dst` is not read. -/
def changeTimestampsAndPerms (env : Env) : Nat → Path → Path → Proc → Except Stop Proc
  | 0, _, _, _ => .error .fuel
  | fuel + 1, src, dst, w =>
    let srcDir := w.fs.opendir src
    let dstDir := w.fs.opendir dst
    let w := (w.opened srcDir).opened dstDir
    match srcDir with
    | none => .error (.crash w)
    | some srcDir => do
      let v ← eachEntry (changeEntry (changeTimestampsAndPerms env fuel) src dst) (env.readdir w.fs w.fs srcDir)
        ⟨w, env.garbage w.fs src, env.garbage w.fs dst⟩
      return v.w

def main (env : Env) (fuel : Nat) (src dst : Path) (w : Proc) : Except Stop Proc := do
  let w ← syncDirectories env fuel src dst w
  changeTimestampsAndPerms env fuel src dst w

end OsLab.A9
