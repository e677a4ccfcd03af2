import OsLab.A9.Rsync

/-!
# What the parts of `rsync.c` do to the files

| result | says |
| --- | --- |
| `eachEntry_rule` | the loop over a stream, with the names it has returned |
| `copyFile_file`, `copyFile_dir` | a copy has the whole content; onto a directory it does nothing |
| `syncReg_file`, `syncReg_blocked` | the regular file case leaves a regular file with `contentAfter`, except where a directory with entries is in its place |
| `removeDirectory_spec` | a directory goes with all that is below it |
-/

namespace OsLab.A9

open FileSys FS

variable {env : Env} {fs : FS} {d src dst : Path} {n : Name}

/-- What stays is listed. -/
theorem Env.mem_readdir_of_same {fs' : FS} (hn : fs.get (n :: d) ≠ none) (hsame : fs'.get (n :: d) = fs.get (n :: d)) :
    .entry n ∈ env.readdir fs fs' d := by
  have hcount := env.listed fs fs' d n hn hsame
  exact List.count_pos_iff.1 (by omega)

/-- A directory that is not changed lists its entries. -/
theorem Env.mem_readdir : .entry n ∈ env.readdir fs fs d ↔ fs.get (n :: d) ≠ none :=
  ⟨fun h => (env.there fs fs d n h).elim id id, fun h => env.mem_readdir_of_same h rfl⟩

/-- `done` are the names returned so far. -/
theorem eachEntry_rule {σ : Type} (f : Name → σ → Except Stop σ) (items : List Dirent) (s : σ) (I : List Name → σ → Prop)
    (h0 : I [] s)
    (step : ∀ n done s, .entry n ∈ items → (items.count (.entry n) = 1 → n ∉ done) → I done s →
      ∃ s', f n s = .ok s' ∧ I (n :: done) s') :
    ∃ s' done, eachEntry f items s = .ok s' ∧ I done s' ∧ ∀ n, n ∈ done ↔ .entry n ∈ items := by
  suffices h : ∀ rest pre s done, items = pre ++ rest → (∀ n, n ∈ done ↔ .entry n ∈ pre) → I done s →
      ∃ s' done', eachEntry f rest s = .ok s' ∧ I done' s' ∧ ∀ n, n ∈ done' ↔ .entry n ∈ items from
    h items [] s [] rfl (fun n => by simp) h0
  intro rest
  induction rest with
  | nil =>
    intro pre s done hitems hdone hI
    rw [List.append_nil] at hitems
    exact ⟨s, done, rfl, hI, hitems ▸ hdone⟩
  | cons item rest ih =>
    intro pre s done hitems hdone hI
    have hnext : items = (pre ++ [item]) ++ rest := by rw [hitems, List.append_assoc, List.singleton_append]
    -- the names `.` and `..` leave the state alone
    have hskip : (∀ n, item ≠ .entry n) → ∃ s' done', eachEntry f rest s = .ok s' ∧ I done' s' ∧
        ∀ n, n ∈ done' ↔ .entry n ∈ items := by
      intro hitem
      refine ih (pre ++ [item]) s done hnext (fun n => ?_) hI
      rw [hdone, List.mem_append, List.mem_singleton, or_iff_left (hitem n).symm]
    cases item with
    | self => exact hskip fun n h => by cases h
    | parent => exact hskip fun n h => by cases h
    | entry n =>
      have hfresh : items.count (.entry n) = 1 → n ∉ done := by
        intro hcount hn
        rw [hitems, List.count_append, List.count_cons_self] at hcount
        have := List.count_pos_iff.2 ((hdone n).1 hn)
        omega
      obtain ⟨s', hs', hI'⟩ := step n done s (hitems ▸ by simp) hfresh hI
      obtain ⟨s'', done', hs'', h⟩ := ih (pre ++ [.entry n]) s' (n :: done) hnext
        (fun m => by rw [List.mem_cons, hdone, List.mem_append, List.mem_singleton, Dirent.entry.injEq, or_comm]) hI'
      exact ⟨s'', done', by rw [eachEntry, hs']; exact hs'', h⟩

/-! ## Copies -/

/-- The loop copies from `off` on, which is where the destination ends. -/
theorem copyLoop_spec {content : List UInt8} {ms : Int} {ps pd : BitVec 12} (hne : src ≠ dst) :
    ∀ (rounds off : Nat) (fs : FS) (md : Int), fs.get src = some (.reg content ms ps) →
      fs.get dst = some (.reg (content.take off) md pd) → content.length < off + rounds →
      ∃ t, SetAt dst (some (.reg content t pd)) fs (copyLoop env (some src) (some dst) rounds off fs) := by
  have hdone : ∀ (off : Nat) (fs : FS) (md : Int), fs.get dst = some (.reg (content.take off) md pd) →
      content.length ≤ off → ∃ t, SetAt dst (some (.reg content t pd)) fs fs := by
    intro off fs md hdst hoff
    rw [List.take_of_length_le hoff] at hdst
    exact ⟨md, .of_get hdst⟩
  intro rounds
  induction rounds with
  | zero => exact fun off fs md _ hdst hlen => hdone off fs md hdst (by omega)
  | succ rounds ih =>
    intro off fs md hsrc hdst hlen
    have hread : fs.read (some src) off 1024 = (content.drop off).take 1024 := by
      simp only [FS.read, Option.bind_some, hsrc]
    rw [copyLoop, hread]
    split
    · next hbuf =>
      refine hdone off fs md hdst ?_
      by_contra hoff
      have hpos : 0 < ((content.drop off).take 1024).length := by
        rw [List.length_take, List.length_drop]
        omega
      rw [hbuf] at hpos
      exact absurd hpos (by simp)
    · next hbuf =>
      set buf := (content.drop off).take 1024 with hbufdef
      have hwrite : fs.write (some dst) buf (env.now fs dst)
          = fs.put dst (.reg (content.take off ++ buf) (env.now fs dst) pd) := by
        simp only [FS.write, hdst]
      have htake : content.take off ++ buf = content.take (off + buf.length) := by
        rw [List.take_add, hbufdef, List.length_take, ← List.take_eq_take_min]
      have hpos : 0 < buf.length := List.length_pos_iff.2 hbuf
      have hset : SetAt dst (some (.reg (content.take (off + buf.length)) (env.now fs dst) pd)) fs
          (fs.write (some dst) buf (env.now fs dst)) := by
        rw [hwrite, htake]
        exact .put (canPut_reg hdst)
      obtain ⟨t, ht⟩ := ih (off + buf.length) _ _ ((hset.get_ne hne).trans hsrc) hset.get_self (by omega)
      exact ⟨t, hset.trans ht⟩

theorem copyLoop_none (srcFd : Option Path) : ∀ (rounds off : Nat) (fs : FS),
    copyLoop env srcFd none rounds off fs = fs := by
  intro rounds
  induction rounds with
  | zero => exact fun _ _ => rfl
  | succ rounds ih =>
    intro off fs
    rw [copyLoop]
    split
    · rfl
    · exact ih _ fs

section
variable {w : Proc} {srcPath : Path} {content : List UInt8} {ms : Int} {ps : BitVec 12} {srcStat dstStat : Stat}

/-- A copy makes or overwrites a regular file. -/
theorem copyFile_file {m : Name} (hsrc : w.fs.get (m :: src) = some (.reg content ms ps))
    (hsize : srcStat.size = content.length) (hne : m :: src ≠ n :: d) (hd : w.fs.kind d = some .dir)
    (hdst : w.fs.kind (n :: d) = none ∨ w.fs.kind (n :: d) = some .reg) :
    ∃ t perm, SetAt (n :: d) (some (.reg content t perm)) w.fs (copyFile env (m :: src) (n :: d) srcStat w).fs := by
  obtain ⟨perm, fs, hopen, hset⟩ : ∃ perm fs,
      w.fs.openWrite (n :: d) (srcStat.perm &&& ~~~env.umask) (env.now w.fs (n :: d)) = (some (n :: d), fs) ∧
      SetAt (n :: d) (some (.reg [] (env.now w.fs (n :: d)) perm)) w.fs fs := by
    rcases hdst with hnone | hreg
    · have hget := w.fs.kind_eq_none_iff.1 hnone
      exact ⟨_, _, openWrite_none hd hget _, .put (.inr ⟨hget, hd⟩)⟩
    · obtain ⟨old, mtime, perm, ho⟩ := exists_reg hreg
      exact ⟨perm, _, openWrite_reg ho _ _, .put (canPut_reg ho)⟩
  simp only [copyFile, openRead_reg hsrc, hopen, Proc.closed_fs, Proc.call_fs]
  obtain ⟨t, ht⟩ := copyLoop_spec hne (srcStat.size + 1) 0 fs _ ((hset.get_ne hne).trans hsrc) hset.get_self (by omega)
  exact ⟨t, perm, hset.trans ht⟩

/-- `open` fails with `EISDIR`, and the loop reads the file without writing. -/
theorem copyFile_dir (hdst : w.fs.kind d = some .dir) : (copyFile env srcPath d srcStat w).fs = w.fs := by
  simp only [copyFile, openWrite_dir hdst, Proc.closed_fs, Proc.call_fs, copyLoop_none]

/-- The contents a regular file of the destination has after a run: its own where it looks like the source's. -/
def contentAfter (content : List UInt8) (mtime : Int) : Option Obj → List UInt8
  | some (.reg old mtime' _) => if content.length = old.length ∧ mtime = mtime' then old else content
  | _ => content

/-- What `lstat` left, with `st_mode` 0 where it failed. -/
def StatOf : Option Obj → Stat → Prop
  | some o, st => st = o.stat
  | none, st => st.kind = none

theorem statOf_lstat (h : w.fs.kind d = some .dir) (st : Stat) (hst : st.kind = none) :
    StatOf (w.fs.get (n :: d)) ((w.fs.lstat (n :: d)).getD st) := by
  rw [lstat_entry h]
  cases w.fs.get (n :: d) with
  | some o => rfl
  | none => exact hst

theorem StatOf.kind {p : Path} {st : Stat} (h : StatOf (fs.get p) st) : st.kind = fs.kind p := by
  rw [FS.kind]
  cases hget : fs.get p with
  | some o =>
    rw [hget] at h
    rw [h, Option.map_some, o.stat_kind]
  | none =>
    rw [hget] at h
    exact h

/-- In every branch, when nothing lies below the destination. -/
theorem syncReg_file (env : Env) {m : Name} (hsrc : w.fs.get (m :: src) = some (.reg content ms ps))
    (hstat : srcStat = (Obj.reg content ms ps).stat) (hne : m :: src ≠ n :: d) (hd : w.fs.kind d = some .dir)
    (hdst : StatOf (w.fs.get (n :: d)) dstStat) (hempty : w.fs.names (n :: d) = []) :
    ∃ t perm, SetAt (n :: d) (some (.reg (contentAfter content ms (w.fs.get (n :: d))) t perm)) w.fs
      (syncReg env (m :: src) (n :: d) srcStat dstStat w).fs := by
  have hsize : srcStat.size = content.length := hstat ▸ rfl
  have hmtime : srcStat.mtime = ms := hstat ▸ rfl
  rw [syncReg, hdst.kind]
  split
  · next hreg =>
    obtain ⟨old, mtime, perm, ho⟩ := exists_reg hreg
    rw [ho] at hdst
    have hdstStat : dstStat = (Obj.reg old mtime perm).stat := hdst
    have hsame : (srcStat.size = dstStat.size ∧ srcStat.mtime = dstStat.mtime) ↔
        content.length = old.length ∧ ms = mtime := by
      rw [hsize, hmtime, hdstStat]
      rfl
    simp only [hsame, ho, contentAfter]
    split
    · -- left as it is
      exact ⟨mtime, perm, .of_get ho⟩
    · obtain ⟨t, perm', hcopy⟩ := copyFile_file (w := w.print "[o]" (n :: d)) hsrc hsize hne hd (.inr hreg)
      generalize copyFile env (m :: src) (n :: d) srcStat (w.print "[o]" (n :: d)) = w' at hcopy ⊢
      have hutime : SetAt (n :: d) (some (.reg content srcStat.mtime perm')) w'.fs (w'.fs.utime (n :: d) srcStat.mtime) := by
        rw [utime_reg hcopy.get_self]
        exact .put (canPut_reg hcopy.get_self)
      refine ⟨srcStat.mtime, srcStat.perm, (hcopy.trans hutime).trans ?_⟩
      rw [Proc.call_fs, Proc.call_fs, chmod_reg hutime.get_self]
      exact .put (canPut_reg hutime.get_self)
  · next hreg =>
    have hcontent : contentAfter content ms (w.fs.get (n :: d)) = content := by
      rw [FS.kind] at hreg
      cases hget : w.fs.get (n :: d) with
      | none => rfl
      | some o =>
        cases o with
        | reg old mtime perm => rw [hget] at hreg; exact absurd rfl hreg
        | dir | symlink | other => rfl
    rw [hcontent]
    split
    · next hnone =>
      obtain ⟨t, perm, hcopy⟩ := copyFile_file (w := w.print "[+]" (n :: d)) hsrc hsize hne hd (.inl hnone)
      exact ⟨t, perm, hcopy⟩
    · -- removed first: the copy finds nothing at the destination
      set w' := ((w.print "[-]" (n :: d)).call (FS.remove · (n :: d))).print "[+]" (n :: d)
      have hrm : SetAt (n :: d) none w.fs w'.fs := setAt_remove hd hempty
      have hd' : w'.fs.kind d = some .dir := (hrm.sameOff.kind (not_cons_suffix n d)).trans hd
      obtain ⟨t, perm, hcopy⟩ := copyFile_file ((hrm.get_ne hne).trans hsrc) hsize hne hd'
        (.inl (w'.fs.kind_eq_none_iff.2 hrm.get_self))
      exact ⟨t, perm, hrm.trans hcopy⟩

/-- A directory with entries in the place of a regular file stays: `remove` fails, and so does `open`. -/
theorem syncReg_blocked (hd : w.fs.kind d = some .dir) (hdir : w.fs.kind (n :: d) = some .dir)
    (hdst : dstStat.kind = w.fs.kind (n :: d)) (hne : w.fs.names (n :: d) ≠ []) :
    (syncReg env srcPath (n :: d) srcStat dstStat w).fs = w.fs := by
  have hrm : (((w.print "[-]" (n :: d)).call (FS.remove · (n :: d))).print "[+]" (n :: d)).fs = w.fs :=
    remove_nonempty hd hne
  rw [syncReg, hdst, hdir, if_neg (by simp), if_neg (by simp), copyFile_dir (by rw [hrm, hdir]), hrm]

end

/-! ## Removing -/

/-- No object below `d` is `k` names deep. -/
def Shallow (fs : FS) (d : Path) (k : Nat) : Prop := ∀ q, fs.kind (q ++ d) ≠ none → q.length < k

namespace Shallow
variable {fs' : FS} {k : Nat}

theorem entry (h : Shallow fs d (k + 1)) (n : Name) : Shallow fs (n :: d) k := by
  intro q hq
  have hlen : (q ++ [n]).length < k + 1 := h (q ++ [n]) (by rwa [← List.append_cons])
  rw [List.length_append, List.length_singleton] at hlen
  omega

theorem congr (h : Shallow fs d k) (hsame : SameBelow d fs fs') : Shallow fs' d k :=
  fun q hq => h q (by rwa [← hsame.kind q])

theorem pos (h : Shallow fs d k) (hd : fs.kind d = some .dir) : 0 < k :=
  h [] (by rw [List.nil_append, hd]; exact Option.some_ne_none _)

theorem ofDepth (fs : FS) (d : Path) (hk : fs.depth < k) : Shallow fs d k := by
  intro q hq
  have hlen := fs.length_le_depth (fun hnone => hq (fs.kind_eq_none_iff.2 hnone))
  rw [List.length_append] at hlen
  omega

end Shallow

/-- A loop over `d` that removes the entries but those of `keep`; `done` are the names returned so far. -/
structure Clearing (keep : Name → Prop) (d : Path) (fs fs' : FS) (done : List Name) : Prop where
  off : SameOff d fs fs'
  dir : fs'.kind d = some .dir
  gone : ∀ n ∈ done, ¬ keep n → fs'.get (n :: d) = none
  rest : ∀ n, n ∉ done ∨ keep n → SameBelow (n :: d) fs fs'

namespace Clearing
variable {keep : Name → Prop} {fs' fs'' : FS} {done : List Name}

theorem start (hd : fs.kind d = some .dir) : Clearing keep d fs fs [] :=
  ⟨.refl, hd, fun _ h => absurd h List.not_mem_nil, fun _ _ => .refl⟩

theorem remove (h : Clearing keep d fs fs' done) (hn : ¬ keep n) (hoff : SameOff (n :: d) fs' fs'')
    (hgone : fs''.get (n :: d) = none) : Clearing keep d fs fs'' (n :: done) where
  off := h.off.trans (hoff.mono (List.suffix_cons n d))
  dir := by rw [hoff.kind (not_cons_suffix n d), h.dir]
  gone m hm hkeep := by
    rcases eq_or_ne m n with rfl | hmn
    · exact hgone
    · rw [(hoff.below (.siblings hmn d)).get]
      exact h.gone m ((List.mem_cons.1 hm).resolve_left hmn) hkeep
  rest m hm := by
    have hmn : m ≠ n := by
      rintro rfl
      exact hm.elim (fun hm => hm List.mem_cons_self) hn
    refine (h.rest m ?_).trans (hoff.below (.siblings hmn d))
    exact hm.imp_left fun hm hm' => hm (List.mem_cons_of_mem n hm')

theorem skip (h : Clearing keep d fs fs' done) (hn : keep n) : Clearing keep d fs fs' (n :: done) where
  off := h.off
  dir := h.dir
  gone m hm hkeep := by
    rcases List.mem_cons.1 hm with rfl | hm
    · exact absurd hn hkeep
    · exact h.gone m hm hkeep
  rest m hm := h.rest m (hm.imp_left fun hm hm' => hm (List.mem_cons_of_mem n hm'))

end Clearing

/-- `rmdir` removes directories up to a depth, and nothing else. -/
def Removes (rmdir : Path → Proc → Except Stop Proc) (fuel : Nat) : Prop :=
  ∀ p w, w.fs.kind p = some .dir → p ≠ [] → Shallow w.fs p fuel →
    ∃ w', rmdir p w = .ok w' ∧ SameOff p w.fs w'.fs ∧ w'.fs.get p = none

/-- What is no directory goes with one `remove`. -/
theorem remove_spec (hd : fs.kind d = some .dir) (hn : fs.kind (n :: d) ≠ some .dir) :
    SameOff (n :: d) fs (fs.remove (n :: d)) ∧ (fs.remove (n :: d)).get (n :: d) = none := by
  have hrm := setAt_remove hd (names_eq_nil hn)
  exact ⟨hrm.sameOff, hrm.get_self⟩

theorem removeEntry_spec {rec : Path → Proc → Except Stop Proc} {fuel : Nat} (hrec : Removes rec fuel)
    {v : Proc × Stat} (hd : v.1.fs.kind d = some .dir) (hn : v.1.fs.get (n :: d) ≠ none)
    (hsh : Shallow v.1.fs (n :: d) fuel) :
    ∃ v', removeEntry rec d n v = .ok v' ∧ SameOff (n :: d) v.1.fs v'.1.fs ∧ v'.1.fs.get (n :: d) = none := by
  unfold removeEntry
  simp only [lstat_getD_kind hd v.2 (.inl hn)]
  split
  · next hdir =>
    obtain ⟨w', hw', hoff, hgone⟩ := hrec (n :: d) v.1 hdir (List.cons_ne_nil n d) hsh
    rw [hw']
    exact ⟨_, rfl, hoff, hgone⟩
  · next hdir => exact ⟨_, rfl, remove_spec hd hdir⟩

theorem removeDirectory_spec (env : Env) : ∀ fuel, Removes (removeDirectory env fuel) fuel := by
  intro fuel
  induction fuel with
  | zero => exact fun p w hp _ hsh => absurd (hsh.pos hp) (lt_irrefl 0)
  | succ fuel ih =>
    intro p w hp hne hsh
    simp only [removeDirectory, opendir_dir hp]
    obtain ⟨v, done, hv, h, hdone⟩ := eachEntry_rule (removeEntry (removeDirectory env fuel) p)
      (env.readdir w.fs w.fs p) (w.opened (some p), env.garbage w.fs p)
      (fun done v => Clearing (fun _ => False) p w.fs v.1.fs done) (.start hp) (by
        intro n done v hlisted hfresh h
        have hthere := env.mem_readdir.1 hlisted
        have hsame := h.rest n (.inl (hfresh (env.listed _ _ _ _ hthere rfl)))
        obtain ⟨v', hv', hoff, hgone⟩ := removeEntry_spec ih h.dir (by rwa [hsame.get]) ((hsh.entry n).congr hsame)
        exact ⟨v', hv', h.remove id hoff hgone⟩)
    have hempty : v.1.fs.names p = [] := by
      refine List.eq_nil_iff_forall_not_mem.2 fun n hn => FS.mem_names _ |>.1 hn ?_
      by_cases hmem : n ∈ done
      · exact h.gone n hmem id
      · have hsame := (h.rest n (.inl hmem)).get
        by_contra hthere
        rw [hsame] at hthere
        exact hmem ((hdone n).2 (env.mem_readdir.2 hthere))
    cases p with
    | nil => exact absurd rfl hne
    | cons m p =>
      have hpar : v.1.fs.kind p = some .dir := v.1.fs.kind_parent (v.1.fs.get_ne_none h.dir)
      rw [Proc.opened_fs, hv]
      refine ⟨_, rfl, ?_, ?_⟩
      · rw [Proc.call_fs, Proc.closed_fs]
        exact h.off.trans (setAt_remove hpar hempty).sameOff
      · rw [Proc.call_fs, Proc.closed_fs]
        exact (setAt_remove hpar hempty).get_self

/-- The second loop leaves what the source has. -/
theorem deleteEntry_kept {rmdir : Path → Proc → Except Stop Proc} {v : Vars} (hs : v.w.fs.kind src = some .dir)
    (hn : v.w.fs.get (n :: src) ≠ none) :
    ∃ v', deleteEntry rmdir src dst n v = .ok v' ∧ v'.w.fs = v.w.fs := by
  obtain ⟨o, ho⟩ := Option.ne_none_iff_exists'.1 hn
  simp only [deleteEntry, lstat_entry hs, ho, Option.map_some]
  exact ⟨_, rfl, rfl⟩

/-- It removes what the source does not have. -/
theorem deleteEntry_gone {rmdir : Path → Proc → Except Stop Proc} {fuel : Nat} (hrec : Removes rmdir fuel)
    {v : Vars} (hs : v.w.fs.kind src = some .dir) (hd : v.w.fs.kind dst = some .dir)
    (hns : v.w.fs.get (n :: src) = none) (hnd : v.w.fs.get (n :: dst) ≠ none)
    (hsh : Shallow v.w.fs (n :: dst) fuel) :
    ∃ v', deleteEntry rmdir src dst n v = .ok v' ∧ SameOff (n :: dst) v.w.fs v'.w.fs ∧
      v'.w.fs.get (n :: dst) = none := by
  simp only [deleteEntry, lstat_entry hs, hns, Option.map_none, lstat_getD_kind hd v.dstStat (.inl hnd)]
  split
  · next hdir =>
    obtain ⟨w', hw', hoff, hgone⟩ := hrec (n :: dst) (v.w.print "[-]" (n :: dst)) hdir (List.cons_ne_nil n dst) hsh
    rw [hw']
    exact ⟨_, rfl, hoff, hgone⟩
  · next hdir => exact ⟨_, rfl, remove_spec hd hdir⟩

end OsLab.A9
