import Mathlib.Data.List.AList

/-!
# A file system with POSIX calls

An object is found by its canonical path, the list of names from the object up to the root: the
innermost name comes first, so `n :: p` is the entry `n` of `p`, and what lies at or below `d` are the
paths `q ++ d`. An `FS` is a finite map from these paths; that every object's parent is a directory is
part of the type. `.` and `..` are no names; a directory lists them as `Dirent`s of their own.

The paths a program passes are resolved (`resolve`, `locate`): symbolic links in them are followed, except
a last one where the call does not follow it (`lstat`, `mkdir`, `remove`). A link's target is the path its
text stands for. Permissions are stored and never refuse anything; the mtime of directories is not
kept, and pipes, sockets and devices (`other`) cannot be opened. A call that fails leaves the file system
as it is.
-/

namespace FileSys

abbrev Name := String

/-- Innermost name first. -/
abbrev Path := List Name

/-- Neither path is at or below the other. -/
def Apart (d e : Path) : Prop := ¬ d <:+ e ∧ ¬ e <:+ d

namespace Apart
variable {d e : Path}

theorem symm (h : Apart d e) : Apart e d := ⟨h.2, h.1⟩

theorem not_suffix_append (h : Apart d e) (q : Path) : ¬ e <:+ q ++ d := by
  intro he
  rcases List.suffix_or_suffix_of_suffix (List.suffix_append q d) he with hde | hed
  · exact h.1 hde
  · exact h.2 hed

theorem entry (h : Apart d e) (n : Name) : Apart (n :: d) e :=
  ⟨fun hd => h.1 ((List.suffix_cons n d).trans hd), h.not_suffix_append [n]⟩

theorem siblings {m n : Name} (h : m ≠ n) (d : Path) : Apart (m :: d) (n :: d) := by
  have hsuff : ∀ {a b : Name}, a :: d <:+ b :: d → a = b := by
    intro a b hab
    have heq := hab.eq_of_length rfl
    exact (List.cons.inj heq).1
  exact ⟨fun hs => h (hsuff hs), fun hs => h (hsuff hs).symm⟩

end Apart

theorem not_cons_suffix (n : Name) (d : Path) : ¬ n :: d <:+ d := by
  intro h
  have hlen := h.length_le
  rw [List.length_cons] at hlen
  omega

/-- What `readdir` returns. -/
inductive Dirent
  | self | parent | entry (n : Name)
deriving DecidableEq

inductive Obj
  | reg (content : List UInt8) (mtime : Int) (perm : BitVec 12)
  | dir (perm : BitVec 12)
  | symlink (target : Path)
  | other
deriving DecidableEq

inductive Kind
  | reg | dir | symlink | other
deriving DecidableEq, Repr

def Obj.kind : Obj → Kind
  | .reg .. => .reg
  | .dir .. => .dir
  | .symlink .. => .symlink
  | .other => .other

/-- `struct stat`; `st_mode` is the kind, `none` for 0, and the permissions. -/
structure Stat where
  kind : Option Kind
  size : Nat
  mtime : Int
  perm : BitVec 12
deriving DecidableEq

def Obj.stat : Obj → Stat
  | .reg content mtime perm => ⟨some .reg, content.length, mtime, perm⟩
  | .dir perm => ⟨some .dir, 0, 0, perm⟩
  | .symlink _ => ⟨some .symlink, 0, 0, 0⟩
  | .other => ⟨some .other, 0, 0, 0⟩

theorem Obj.stat_kind (o : Obj) : o.stat.kind = some o.kind := by cases o <;> rfl

structure FS where
  objs : AList fun _ : Path => Obj
  root : (objs.lookup []).map Obj.kind = some .dir
  parent : ∀ n p, (n :: p) ∈ objs → (objs.lookup p).map Obj.kind = some .dir

namespace FS

/-- The root alone. -/
def empty : FS where
  objs := AList.singleton [] (.dir 0o755)
  root := by decide
  parent n p h := by
    rw [AList.mem_keys, AList.keys_singleton, List.mem_singleton] at h
    cases h

def get (fs : FS) (p : Path) : Option Obj := fs.objs.lookup p

def kind (fs : FS) (p : Path) : Option Kind := (fs.get p).map Obj.kind

/-- The entries of a directory. -/
def names (fs : FS) (p : Path) : List Name :=
  fs.objs.keys.filterMap fun
    | n :: q => if q = p then some n else none
    | [] => none

section
variable (fs : FS) {n : Name} {p : Path}

theorem get_eq_none_iff : fs.get p = none ↔ p ∉ fs.objs := AList.lookup_eq_none

theorem mem_objs_iff : p ∈ fs.objs ↔ fs.get p ≠ none := by
  rw [Ne, get_eq_none_iff, not_not]

theorem kind_eq_none_iff : fs.kind p = none ↔ fs.get p = none := Option.map_eq_none_iff

theorem get_ne_none {k : Kind} (h : fs.kind p = some k) : fs.get p ≠ none := by
  intro hnone
  rw [fs.kind_eq_none_iff.2 hnone] at h
  cases h

theorem kind_root : fs.kind [] = some .dir := fs.root

theorem kind_parent (h : fs.get (n :: p) ≠ none) : fs.kind p = some .dir :=
  fs.parent n p (fs.mem_objs_iff.2 h)

theorem mem_names : n ∈ fs.names p ↔ fs.get (n :: p) ≠ none := by
  rw [← mem_objs_iff, AList.mem_keys, names, List.mem_filterMap]
  constructor
  · rintro ⟨q, hq, hn⟩
    split at hn
    · split at hn <;> cases hn
      rename_i he
      rwa [← he]
    · cases hn
  · exact fun h => ⟨n :: p, h, if_pos rfl⟩

theorem names_nodup : (fs.names p).Nodup := by
  have hname : ∀ q n, (match q with | m :: r => if r = p then some m else none | [] => none) = some n → q = n :: p := by
    intro q n h
    split at h
    · split at h <;> cases h
      rename_i hr
      rw [hr]
    · cases h
  exact fs.objs.keys_nodup.filterMap fun q q' n hq hq' => (hname q n hq).trans (hname q' n hq').symm

/-- Nothing lies below a path that does not exist or is not a directory. -/
theorem get_below_none (h : fs.kind p ≠ some .dir) (q : Path) (hq : q ≠ []) : fs.get (q ++ p) = none := by
  induction q with
  | nil => exact absurd rfl hq
  | cons m q ih =>
    by_contra hne
    have hdir : fs.kind (q ++ p) = some .dir := fs.kind_parent hne
    rcases eq_or_ne q [] with rfl | hq'
    · exact h hdir
    · exact fs.get_ne_none hdir (ih hq')

theorem kind_below_none (h : fs.kind p ≠ some .dir) (q : Path) (hq : q ≠ []) : fs.kind (q ++ p) = none :=
  fs.kind_eq_none_iff.2 (fs.get_below_none h q hq)

theorem kind_append_none (h : fs.get p = none) (q : Path) : fs.kind (q ++ p) = none := by
  rcases eq_or_ne q [] with rfl | hq
  · exact fs.kind_eq_none_iff.2 h
  · exact fs.kind_below_none (fun hdir => fs.get_ne_none hdir h) q hq

/-- No path of an object is longer. -/
def depth : Nat := (fs.objs.keys.map List.length).foldr max 0

theorem length_le_depth (h : fs.get p ≠ none) : p.length ≤ fs.depth := by
  have hmem : p.length ∈ fs.objs.keys.map List.length :=
    List.mem_map_of_mem (AList.mem_keys.1 (fs.mem_objs_iff.2 h))
  unfold depth
  generalize fs.objs.keys.map List.length = ls at hmem
  induction ls with
  | nil => cases hmem
  | cons l ls ih =>
    rw [List.foldr_cons]
    rcases List.mem_cons.1 hmem with rfl | hmem
    · exact Nat.le_max_left _ _
    · exact Nat.le_trans (ih hmem) (Nat.le_max_right _ _)

end

/-! ## Changing one object -/

/-- The object may take the place of what is at `p`: it is of the same kind, or there is nothing and the
parent is a directory. -/
def CanPut (fs : FS) (p : Path) (o : Obj) : Prop :=
  fs.kind p = some o.kind ∨ fs.get p = none ∧ fs.kind p.tail = some .dir

instance (fs : FS) (p : Path) (o : Obj) : Decidable (fs.CanPut p o) :=
  inferInstanceAs (Decidable (_ ∨ _ ∧ _))

def put (fs : FS) (p : Path) (o : Obj) : FS :=
  if h : fs.CanPut p o then
    { objs := fs.objs.insert p o
      root := by
        rcases eq_or_ne p [] with rfl | hp
        · rw [AList.lookup_insert, Option.map_some]
          rcases h with h | ⟨h, -⟩
          · rw [← h, fs.kind_root]
          · exact absurd h (fs.get_ne_none fs.kind_root)
        · rw [AList.lookup_insert_ne hp.symm]
          exact fs.root
      parent := by
        intro n q hmem
        -- the parent is a directory of `fs`, and stays one where it is `p` itself
        have hdir : fs.kind q = some .dir := by
          rcases (AList.mem_insert _).1 hmem with rfl | hmem
          · rcases h with h | ⟨-, h⟩
            · exact fs.kind_parent (fs.get_ne_none h)
            · exact h
          · exact fs.parent n q hmem
        rcases eq_or_ne q p with rfl | hq
        · rw [AList.lookup_insert, Option.map_some]
          rcases h with h | ⟨h, -⟩
          · rw [← h, hdir]
          · exact absurd h (fs.get_ne_none hdir)
        · rw [AList.lookup_insert_ne hq]
          exact hdir }
  else fs

theorem get_put {fs : FS} {p : Path} {o : Obj} (h : fs.CanPut p o) (q : Path) :
    (fs.put p o).get q = if q = p then some o else fs.get q := by
  rw [put, dif_pos h, get]
  split
  · next hq => rw [hq, AList.lookup_insert]
  · next hq => rw [AList.lookup_insert_ne hq]; rfl

/-- The objects added one after the other. -/
def ofList (objs : List (Path × Obj)) : FS := objs.foldl (fun fs x => fs.put x.1 x.2) empty

/-- A regular file may be replaced by another. -/
theorem canPut_reg {fs : FS} {p : Path} {content content' : List UInt8} {mtime mtime' : Int} {perm perm' : BitVec 12}
    (h : fs.get p = some (.reg content mtime perm)) : fs.CanPut p (.reg content' mtime' perm') := by
  left
  rw [kind, h]
  rfl

/-- Erasing an object that is not the root and has no entries; a directory that has some stays. -/
def del (fs : FS) (p : Path) : FS :=
  if h : p ≠ [] ∧ fs.names p = [] then
    { objs := fs.objs.erase p
      root := by
        rw [AList.lookup_erase_ne h.1.symm]
        exact fs.root
      parent := by
        intro n q hmem
        have hobj : (n :: q) ∈ fs.objs := (AList.mem_erase.1 hmem).2
        have hq : q ≠ p := by
          rintro rfl
          have hn : n ∈ fs.names q := fs.mem_names.2 (fs.mem_objs_iff.1 hobj)
          rw [h.2] at hn
          cases hn
        rw [AList.lookup_erase_ne hq]
        exact fs.parent n q hobj }
  else fs

theorem get_del {fs : FS} {p : Path} (hp : p ≠ []) (h : fs.names p = []) (q : Path) :
    (fs.del p).get q = if q = p then none else fs.get q := by
  rw [del, dif_pos ⟨hp, h⟩, get]
  split
  · next hq => rw [hq, AList.lookup_erase]
  · next hq => rw [AList.lookup_erase_ne hq]; rfl

/-- `ENOTEMPTY` -/
theorem del_nonempty {fs : FS} {p : Path} (h : fs.names p ≠ []) : fs.del p = fs :=
  dif_neg fun h' => h h'.2

/-- What is not a directory has no entries. -/
theorem names_eq_nil {fs : FS} {p : Path} (h : fs.kind p ≠ some .dir) : fs.names p = [] := by
  refine List.eq_nil_iff_forall_not_mem.2 fun n hn => ?_
  exact h (fs.kind_parent (fs.mem_names.1 hn))

/-! ## Frames -/

/-- Nothing changes except at or below `d`. -/
def SameOff (d : Path) (fs fs' : FS) : Prop := ∀ p, ¬ d <:+ p → fs'.get p = fs.get p

/-- Nothing changes at or below `d`. -/
def SameBelow (d : Path) (fs fs' : FS) : Prop := ∀ q, fs'.get (q ++ d) = fs.get (q ++ d)

namespace SameOff
variable {fs fs' fs'' : FS} {d e p : Path}

theorem refl : SameOff d fs fs := fun _ _ => rfl

theorem trans (h : SameOff d fs fs') (h' : SameOff d fs' fs'') : SameOff d fs fs'' :=
  fun p hp => (h' p hp).trans (h p hp)

/-- What changes only below `e` changes only below what is above `e`. -/
theorem mono (h : SameOff e fs fs') (hd : d <:+ e) : SameOff d fs fs' :=
  fun p hp => h p fun he => hp (hd.trans he)

theorem kind (h : SameOff d fs fs') (hp : ¬ d <:+ p) : fs'.kind p = fs.kind p := by
  rw [FS.kind, h p hp, FS.kind]

theorem below (h : SameOff e fs fs') (hde : Apart d e) : SameBelow d fs fs' :=
  fun q => h (q ++ d) (hde.not_suffix_append q)

end SameOff

namespace SameBelow
variable {fs fs' fs'' : FS} {d : Path}

theorem refl : SameBelow d fs fs := fun _ => rfl

theorem trans (h : SameBelow d fs fs') (h' : SameBelow d fs' fs'') : SameBelow d fs fs'' :=
  fun q => (h' q).trans (h q)

theorem symm (h : SameBelow d fs fs') : SameBelow d fs' fs := fun q => (h q).symm

theorem get (h : SameBelow d fs fs') : fs'.get d = fs.get d := h []

theorem kind (h : SameBelow d fs fs') (q : Path) : fs'.kind (q ++ d) = fs.kind (q ++ d) := by
  rw [FS.kind, h q, FS.kind]

theorem kind_self (h : SameBelow d fs fs') : fs'.kind d = fs.kind d := h.kind []

theorem entry (h : SameBelow d fs fs') (n : Name) : SameBelow (n :: d) fs fs' := by
  intro q
  rw [List.append_cons]
  exact h (q ++ [n])

end SameBelow

/-- The second file system is the first with `o` at `p`. -/
def SetAt (p : Path) (o : Option Obj) (fs fs' : FS) : Prop := ∀ q, fs'.get q = if q = p then o else fs.get q

namespace SetAt
variable {fs fs' fs'' : FS} {p q : Path} {o o' : Option Obj}

theorem put {o : Obj} (h : fs.CanPut p o) : SetAt p (some o) fs (fs.put p o) := get_put h

theorem of_get (h : fs.get p = o) : SetAt p o fs fs := by
  intro q
  split
  · next hq => rw [hq, h]
  · rfl

theorem get_self (h : SetAt p o fs fs') : fs'.get p = o := by rw [h, if_pos rfl]

theorem get_ne (h : SetAt p o fs fs') (hq : q ≠ p) : fs'.get q = fs.get q := by rw [h, if_neg hq]

theorem trans (h : SetAt p o fs fs') (h' : SetAt p o' fs' fs'') : SetAt p o' fs fs'' := by
  intro q
  rw [h']
  split
  · rfl
  · next hq => rw [h.get_ne hq]

theorem sameOff (h : SetAt p o fs fs') : SameOff p fs fs' := by
  intro q hq
  refine h.get_ne ?_
  rintro rfl
  exact hq (List.suffix_refl q)

end SetAt

/-! ## Paths with symbolic links -/

/-- Where a path leads when each link on it leads to `onLink` of its target; the last name need not
exist. -/
def walk (fs : FS) (onLink : Path → Option Path) : Path → Option Path
  | [] => some []
  | n :: p =>
    match fs.walk onLink p with
    | none => none
    | some d =>
      if fs.kind d = some .dir then
        match fs.get (n :: d) with
        | some (.symlink target) => onLink target
        | _ => some (n :: d)
      else none

/-- `ELOOP` beyond this depth of links in links. -/
def maxLinks : Nat := 40

def follow (fs : FS) : Nat → Path → Option Path
  | 0, _ => none
  | links + 1, p => fs.walk (fs.follow links) p

def resolve (fs : FS) (p : Path) : Option Path := fs.follow maxLinks p

/-- As `resolve`, a link in the last place not followed. -/
def locate (fs : FS) : Path → Option Path
  | [] => some []
  | n :: p =>
    match fs.resolve p with
    | none => none
    | some d => if fs.kind d = some .dir then some (n :: d) else none

section
variable {fs : FS} {d : Path} {n : Name}

/-- The canonical path of a directory leads to it. -/
theorem walk_dir (onLink : Path → Option Path) : ∀ {d : Path}, fs.kind d = some .dir → fs.walk onLink d = some d
  | [], _ => rfl
  | n :: d, h => by
    have hd := fs.kind_parent (fs.get_ne_none h)
    simp only [walk, walk_dir onLink hd, if_pos hd]
    split
    · next hlink => rw [FS.kind, hlink] at h; cases h
    · rfl

theorem resolve_dir (h : fs.kind d = some .dir) : fs.resolve d = some d := walk_dir _ h

theorem locate_entry (h : fs.kind d = some .dir) : fs.locate (n :: d) = some (n :: d) := by
  rw [locate, resolve_dir h]
  exact if_pos h

theorem resolve_entry (h : fs.kind d = some .dir) (hn : fs.kind (n :: d) ≠ some .symlink) :
    fs.resolve (n :: d) = some (n :: d) := by
  simp only [resolve, maxLinks, follow, walk, walk_dir _ h, if_pos h]
  split
  · next hlink => rw [FS.kind, hlink] at hn; exact absurd rfl hn
  · rfl

end

/-! ## Calls -/

/-- `none` for -1. -/
def lstat (fs : FS) (p : Path) : Option Stat := (fs.locate p).bind fun d => (fs.get d).map Obj.stat

/-- The directory a stream lists. -/
def opendir (fs : FS) (p : Path) : Option Path := (fs.resolve p).filter fun d => fs.kind d = some .dir

def mkdir (fs : FS) (p : Path) (perm : BitVec 12) : FS :=
  match fs.locate p with
  | some d => if fs.get d = none then fs.put d (.dir perm) else fs
  | none => fs

/-- `unlink`, or `rmdir` of a directory -/
def remove (fs : FS) (p : Path) : FS :=
  match fs.locate p with
  | some d => fs.del d
  | none => fs

/-- `open(p, O_RDONLY)`: the object the descriptor is for. -/
def openRead (fs : FS) (p : Path) : Option Path := (fs.resolve p).filter fun d => (fs.get d).isSome

/-- `open(p, O_WRONLY | O_CREAT | O_TRUNC, perm)` -/
def openWrite (fs : FS) (p : Path) (perm : BitVec 12) (now : Int) : Option Path × FS :=
  match fs.resolve p with
  | none => (none, fs)
  | some d =>
    match fs.get d with
    | some (.reg _ _ perm') => (some d, fs.put d (.reg [] now perm'))
    | none => (some d, fs.put d (.reg [] now perm))
    | some _ => (none, fs)

/-- Up to `n` bytes from offset `off`; none is the end of the file or -1. -/
def read (fs : FS) (fd : Option Path) (off n : Nat) : List UInt8 :=
  match fd.bind fs.get with
  | some (.reg content _ _) => (content.drop off).take n
  | _ => []

/-- After what the descriptor has written since it truncated the file. -/
def write (fs : FS) (fd : Option Path) (buf : List UInt8) (now : Int) : FS :=
  match fd with
  | none => fs
  | some d =>
    match fs.get d with
    | some (.reg content _ perm) => fs.put d (.reg (content ++ buf) now perm)
    | _ => fs

def utime (fs : FS) (p : Path) (mtime : Int) : FS :=
  match fs.resolve p with
  | some d =>
    match fs.get d with
    | some (.reg content _ perm) => fs.put d (.reg content mtime perm)
    | _ => fs
  | none => fs

def chmod (fs : FS) (p : Path) (perm : BitVec 12) : FS :=
  match fs.resolve p with
  | some d =>
    match fs.get d with
    | some (.reg content mtime _) => fs.put d (.reg content mtime perm)
    | some (.dir _) => fs.put d (.dir perm)
    | _ => fs
  | none => fs

/-! ## Calls on a directory and its entries -/

section
variable {fs : FS} {d : Path} {n : Name} {content : List UInt8} {mtime : Int} {perm : BitVec 12}

theorem lstat_entry (h : fs.kind d = some .dir) : fs.lstat (n :: d) = (fs.get (n :: d)).map Obj.stat := by
  rw [lstat, locate_entry h, Option.bind_some]

theorem opendir_dir (h : fs.kind d = some .dir) : fs.opendir d = some d := by
  rw [opendir, resolve_dir h, Option.filter_some, if_pos (decide_eq_true h)]

theorem lstat_getD_kind (h : fs.kind d = some .dir) (st : Stat) (hn : fs.get (n :: d) ≠ none ∨ st.kind = none) :
    ((fs.lstat (n :: d)).getD st).kind = fs.kind (n :: d) := by
  rw [lstat_entry h, kind]
  cases hget : fs.get (n :: d) with
  | some o => exact o.stat_kind
  | none => exact hn.resolve_left (fun hne => hne hget)

theorem mkdir_entry (h : fs.kind d = some .dir) (hn : fs.get (n :: d) = none) :
    fs.mkdir (n :: d) perm = fs.put (n :: d) (.dir perm) := by
  simp only [mkdir, locate_entry h, if_pos hn]

theorem remove_entry (h : fs.kind d = some .dir) : fs.remove (n :: d) = fs.del (n :: d) := by
  simp only [remove, locate_entry h]

theorem setAt_remove (h : fs.kind d = some .dir) (hn : fs.names (n :: d) = []) :
    SetAt (n :: d) none fs (fs.remove (n :: d)) := by
  rw [remove_entry h]
  exact get_del (List.cons_ne_nil n d) hn

theorem setAt_mkdir (h : fs.kind d = some .dir) (hn : fs.get (n :: d) = none) (perm : BitVec 12) :
    SetAt (n :: d) (some (.dir perm)) fs (fs.mkdir (n :: d) perm) := by
  rw [mkdir_entry h hn]
  exact .put (.inr ⟨hn, h⟩)

/-- `ENOTEMPTY` -/
theorem remove_nonempty (h : fs.kind d = some .dir) (hn : fs.names (n :: d) ≠ []) : fs.remove (n :: d) = fs := by
  rw [remove_entry h, del_nonempty hn]

theorem kind_of_get {o : Obj} {p : Path} (h : fs.get p = some o) : fs.kind p = some o.kind := by
  rw [FS.kind, h, Option.map_some]

theorem exists_reg {p : Path} (h : fs.kind p = some .reg) :
    ∃ content mtime perm, fs.get p = some (.reg content mtime perm) := by
  obtain ⟨o, ho, hkind⟩ := Option.map_eq_some_iff.1 h
  cases o with
  | reg content mtime perm => exact ⟨content, mtime, perm, ho⟩
  | dir | symlink | other => cases hkind

theorem exists_dir {p : Path} (h : fs.kind p = some .dir) : ∃ perm, fs.get p = some (.dir perm) := by
  obtain ⟨o, ho, hkind⟩ := Option.map_eq_some_iff.1 h
  cases o with
  | dir perm => exact ⟨perm, ho⟩
  | reg | symlink | other => cases hkind

theorem resolve_reg (h : fs.get (n :: d) = some (.reg content mtime perm)) :
    fs.resolve (n :: d) = some (n :: d) := by
  refine resolve_entry (fs.kind_parent (h ▸ Option.some_ne_none _)) ?_
  rw [kind_of_get h, Obj.kind]
  exact fun hkind => by cases hkind

theorem openRead_reg (h : fs.get (n :: d) = some (.reg content mtime perm)) :
    fs.openRead (n :: d) = some (n :: d) := by
  rw [openRead, resolve_reg h, Option.filter_some, h, Option.isSome_some, if_pos rfl]

theorem openWrite_reg (h : fs.get (n :: d) = some (.reg content mtime perm)) (perm' : BitVec 12) (now : Int) :
    fs.openWrite (n :: d) perm' now = (some (n :: d), fs.put (n :: d) (.reg [] now perm)) := by
  simp only [openWrite, resolve_reg h, h]

theorem openWrite_none (hd : fs.kind d = some .dir) (h : fs.get (n :: d) = none) (now : Int) :
    fs.openWrite (n :: d) perm now = (some (n :: d), fs.put (n :: d) (.reg [] now perm)) := by
  have hn : fs.kind (n :: d) ≠ some .symlink := by
    rw [fs.kind_eq_none_iff.2 h]
    exact fun hkind => by cases hkind
  simp only [openWrite, resolve_entry hd hn, h]

/-- `EISDIR` -/
theorem openWrite_dir (h : fs.kind d = some .dir) (perm' : BitVec 12) (now : Int) :
    fs.openWrite d perm' now = (none, fs) := by
  rw [openWrite, resolve_dir h]
  obtain ⟨o, ho⟩ := Option.map_eq_some_iff.1 h
  cases o <;> simp_all [Obj.kind]

theorem utime_reg (h : fs.get (n :: d) = some (.reg content mtime perm)) (t : Int) :
    fs.utime (n :: d) t = fs.put (n :: d) (.reg content t perm) := by
  simp only [utime, resolve_reg h, h]

theorem chmod_reg (h : fs.get (n :: d) = some (.reg content mtime perm)) (perm' : BitVec 12) :
    fs.chmod (n :: d) perm' = fs.put (n :: d) (.reg content mtime perm') := by
  simp only [chmod, resolve_reg h, h]

end

/-! ## Paths without links -/

/-- No name of the path is that of a link. -/
def NoLink (fs : FS) (p : Path) : Prop := ∀ q, q <:+ p → fs.kind q ≠ some .symlink

namespace NoLink
variable {fs fs' : FS} {d p : Path} {n : Name}

theorem of_dir (h : fs.kind d = some .dir) : NoLink fs d := by
  induction d with
  | nil =>
    intro q hq
    rw [List.suffix_nil.1 hq, fs.kind_root]
    simp
  | cons n d ih =>
    intro q hq
    rcases List.suffix_cons_iff.1 hq with rfl | hq
    · rw [h]; simp
    · exact ih (fs.kind_parent (fs.get_ne_none h)) q hq

theorem entry (h : NoLink fs d) (hn : fs.kind (n :: d) ≠ some .symlink) : NoLink fs (n :: d) := by
  intro q hq
  rcases List.suffix_cons_iff.1 hq with rfl | hq
  · exact hn
  · exact h q hq

theorem dir (h : NoLink fs (n :: d)) : NoLink fs d := fun q hq => h q (hq.trans (List.suffix_cons n d))

/-- What changes below `n` only does not put a link above it. -/
theorem congr (h : NoLink fs d) (hoff : SameOff (n :: d) fs fs') : NoLink fs' d := by
  intro q hq
  rw [hoff.kind fun hn => not_cons_suffix n d (hn.trans hq)]
  exact h q hq

/-- Such a path leads to its own object or nowhere. -/
theorem walk (h : NoLink fs p) (onLink : Path → Option Path) : fs.walk onLink p = none ∨ fs.walk onLink p = some p := by
  induction p with
  | nil => exact .inr rfl
  | cons n p ih =>
    simp only [FS.walk]
    rcases ih h.dir with hp | hp
    · rw [hp]; exact .inl rfl
    · rw [hp]
      by_cases hd : fs.kind p = some .dir
      · right
        simp only [if_pos hd]
        split
        · next hlink => exact absurd (by rw [FS.kind, hlink]; rfl) (h _ (List.suffix_refl _))
        · rfl
      · left
        simp only [if_neg hd]

theorem resolve (h : NoLink fs p) : fs.resolve p = none ∨ fs.resolve p = some p := h.walk _

theorem locate (h : NoLink fs d) : fs.locate (n :: d) = none ∨ fs.locate (n :: d) = some (n :: d) := by
  rw [FS.locate]
  rcases h.resolve with hd | hd <;> rw [hd]
  · exact .inl rfl
  · by_cases hdir : fs.kind d = some .dir
    · exact .inr (if_pos hdir)
    · exact .inl (if_neg hdir)

theorem locate_none (h : NoLink fs d) (hd : fs.kind d ≠ some .dir) : fs.locate (n :: d) = none := by
  rw [FS.locate]
  rcases h.resolve with hr | hr <;> simp only [hr]
  exact if_neg hd

theorem lstat_entry (h : NoLink fs d) : fs.lstat (n :: d) = (fs.get (n :: d)).map Obj.stat := by
  by_cases hd : fs.kind d = some .dir
  · exact FS.lstat_entry hd
  · have hnone : fs.get (n :: d) = none := fs.get_below_none hd [n] (by simp)
    rw [FS.lstat, hnone, h.locate_none hd]
    rfl

/-- A kind that `lstat` has found, or that is left from before where there is nothing, is not hiding a link. -/
theorem not_link (h : NoLink fs d) (st : Stat) (hk : ((fs.lstat (n :: d)).getD st).kind ≠ some .symlink) :
    fs.kind (n :: d) ≠ some .symlink := by
  rw [h.lstat_entry] at hk
  rw [FS.kind]
  cases hget : fs.get (n :: d) with
  | none => simp
  | some o =>
    rw [hget] at hk
    rw [Option.map_some, ← o.stat_kind]
    exact hk

end NoLink

/-! ## Calls on paths without links -/

/-- Only what is at or below `p` changes, and `p` goes through no link afterwards. -/
structure Touches (p : Path) (fs fs' : FS) : Prop where
  off : SameOff p fs fs'
  noLink : NoLink fs' p

section
variable {fs fs' fs'' : FS} {d p : Path} {n : Name} {o : Obj}

theorem Touches.refl (h : NoLink fs p) : Touches p fs fs := ⟨.refl, h⟩

theorem Touches.trans (h : Touches p fs fs') (h' : Touches p fs' fs'') : Touches p fs fs'' :=
  ⟨h.off.trans h'.off, h'.noLink⟩

theorem sameOff_put (fs : FS) (p : Path) (o : Obj) : SameOff p fs (fs.put p o) := by
  by_cases h : fs.CanPut p o
  · exact (SetAt.put h).sameOff
  · rw [put, dif_neg h]; exact .refl

theorem sameOff_del (fs : FS) (p : Path) : SameOff p fs (fs.del p) := by
  by_cases h : p ≠ [] ∧ fs.names p = []
  · intro q hq
    rw [get_del h.1 h.2, if_neg]
    rintro rfl
    exact hq (List.suffix_refl _)
  · rw [del, dif_neg h]; exact .refl

namespace NoLink

theorem put (h : NoLink fs p) (ho : o.kind ≠ .symlink) : Touches p fs (fs.put p o) := by
  refine ⟨sameOff_put fs p o, fun q hq => ?_⟩
  by_cases hput : fs.CanPut p o
  · rw [FS.kind, get_put hput]
    split
    · simpa using ho
    · exact h q hq
  · rw [FS.put, dif_neg hput]; exact h q hq

/-- A link in the last place is taken away. -/
theorem remove (h : NoLink fs d) : Touches (n :: d) fs (fs.remove (n :: d)) := by
  have hoff : SameOff (n :: d) fs (fs.remove (n :: d)) := by
    rw [FS.remove]
    rcases h.locate (n := n) with hn | hn <;> rw [hn]
    · exact .refl
    · exact sameOff_del fs _
  refine ⟨hoff, (h.congr hoff).entry ?_⟩
  by_cases hd : fs.kind d = some .dir
  · by_cases hnames : fs.names (n :: d) = []
    · rw [FS.kind, (setAt_remove hd hnames).get_self]; simp
    · have hdir : fs.kind (n :: d) = some .dir := by
        by_contra hno
        exact hnames (names_eq_nil hno)
      rw [remove_nonempty hd hnames, hdir]; simp
  · have hnone : fs.get (n :: d) = none := fs.get_below_none hd [n] (by simp)
    have hrm : fs.remove (n :: d) = fs := by rw [FS.remove, h.locate_none hd]
    rw [hrm, FS.kind, hnone]; simp

theorem mkdir (h : NoLink fs (n :: d)) (perm : BitVec 12) : Touches (n :: d) fs (fs.mkdir (n :: d) perm) := by
  rw [FS.mkdir]
  rcases h.dir.locate (n := n) with hn | hn <;> simp only [hn]
  · exact .refl h
  · split
    · exact h.put (by simp [Obj.kind])
    · exact .refl h

theorem openWrite (h : NoLink fs p) (perm : BitVec 12) (now : Int) :
    Touches p fs (fs.openWrite p perm now).2 ∧ ∀ fd, (fs.openWrite p perm now).1 = some fd → fd = p := by
  rw [FS.openWrite]
  rcases h.resolve with hp | hp <;> simp only [hp]
  · exact ⟨.refl h, fun _ h => by cases h⟩
  · split
    · exact ⟨h.put (by simp [Obj.kind]), fun _ h => (Option.some.inj h).symm⟩
    · exact ⟨h.put (by simp [Obj.kind]), fun _ h => (Option.some.inj h).symm⟩
    · exact ⟨.refl h, fun _ h => by cases h⟩

theorem write (h : NoLink fs p) (buf : List UInt8) (now : Int) : Touches p fs (fs.write (some p) buf now) := by
  simp only [FS.write]
  split
  · exact h.put (by simp [Obj.kind])
  · exact .refl h

theorem utime (h : NoLink fs p) (mtime : Int) : Touches p fs (fs.utime p mtime) := by
  rw [FS.utime]
  rcases h.resolve with hp | hp <;> simp only [hp]
  · exact .refl h
  · split
    · exact h.put (by simp [Obj.kind])
    · exact .refl h

theorem chmod (h : NoLink fs p) (perm : BitVec 12) : Touches p fs (fs.chmod p perm) := by
  rw [FS.chmod]
  rcases h.resolve with hp | hp <;> simp only [hp]
  · exact .refl h
  · split
    · exact h.put (by simp [Obj.kind])
    · exact h.put (by simp [Obj.kind])
    · exact .refl h

end NoLink

end

end FS

end FileSys
