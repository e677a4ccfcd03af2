import OsLab.A8.Alloc
import OsLab.A8.Isolation
import OsLab.A8.Local
import OsLab.A8.Report
import OsLab.Lib.Replacement

/-!
# How often a process faults (A8/mmu.c)

The pages of a process that hold a frame are the keys of a cache (`Shows`), and `total_PFs` counts its misses: a fault with a
free frame makes room (mmu.c:232-237), one without replaces (:243-258). `served_of_run` says so of a run of page requests.

So what holds of least recently used replacement in general holds of the MMU. With more memory there are no more page
faults, if `master` has left no frame free. A frame that is free goes to whoever faults first, and may be just the one
a process has less than with a smaller memory. And no other choice of victims, made with the requests known beforehand,
saves more than a factor, the number of frames of the process.
-/

namespace OsLab.A8

open Function (update)
open LruCache

variable {k f : Nat} {mi : Fin k → Nat} {s s' t x y : Mmu k} {i : Fin k} {r : Request k} {ms : List (MmuMsg k)}
  {past as bs : List (Request k)} {c c' d : List (Nat × Int)} {page : Nat}

/-! ## One request -/

namespace Shows

theorem mem_keys (h : Shows s i c) {p : Nat} : p ∈ keys c ↔ (s.entry i p).frame ≠ -1 := by
  rw [LruCache.mem_keys]
  constructor
  · rintro ⟨g, hg⟩
    exact h.resident hg
  · intro hres
    exact ⟨_, (h.mem p _).2 ⟨rfl, hres⟩⟩

theorem keys_sorted (h : Shows s i c) : (keys c).Pairwise fun p q => stampOf s i p < stampOf s i q :=
  List.pairwise_map.2 h.ordered

theorem keys_nodup (h : Shows s i c) : (keys c).Nodup := h.keys_sorted.imp fun hlt heq => absurd (heq ▸ hlt) (lt_irrefl _)

/-- A fault with a free frame. -/
theorem room (h : Shows s i c) (hno : (s.entry i page).frame = -1)
    (hold : ∀ p, (s.entry i p).frame ≠ -1 → (s.entry i p).lruCtr < s.tick.count) {ind : Nat} (hind : s.SM2 ind = 1) :
    Shows ((s.tick.addPF i).loadPage i page ind) i (c ++ [(page, (ind : Int))]) := by
  have hentry : ∀ p, ((s.tick.addPF i).loadPage i page ind).entry i p =
      if p = page then { s.entry i page with frame := ind, validBit := 1, lruCtr := s.tick.count } else s.entry i p := by
    intro p
    have hind' : (s.tick.addPF i).SM2 ind = 1 := hind
    rw [Mmu.loadPage, if_pos hind', Mmu.entry_setSM2, Mmu.entry_modEntry, Mmu.entry_addPF, Mmu.entry_addPF]
    by_cases hp : p = page
    · rw [if_pos ⟨rfl, hp⟩, if_pos hp]
      rfl
    · rw [if_neg fun hp' => hp hp'.2, if_neg hp, Mmu.entry_tick]
  have hkeys : ∀ z ∈ c, z.1 ≠ page := fun z hz heq => h.resident hz (heq ▸ hno)
  refine ⟨fun p g => ?_, List.pairwise_append.2 ⟨?_, List.pairwise_singleton _ _, fun z hz w hw => ?_⟩⟩
  · rw [List.mem_append, List.mem_singleton, Prod.mk.injEq, hentry]
    split
    · next hp =>
      rw [or_iff_right fun hg => hkeys (p, g) hg hp, and_iff_right hp]
      dsimp only
      omega
    · next hp => rw [or_iff_left fun hg => hp hg.1, h.mem]
  · refine List.Pairwise.imp_of_mem (fun hz hw hlt => ?_) h.ordered
    rwa [stampOf, stampOf, hentry, hentry, if_neg (hkeys _ hz), if_neg (hkeys _ hw)]
  · rw [List.mem_singleton.1 hw, stampOf, stampOf, hentry, hentry, if_neg (hkeys z hz), if_pos rfl, Prod.Lex.toLex_lt_toLex]
    exact .inl (hold z.1 (h.resident hz))

/-- An access by process `i` itself, perhaps with room, and nothing by another one. -/
theorem serve (h : Shows s i c) (I : MmuInv f mi s) (hr : InRange mi r)
    (hold : ∀ p, (s.entry i p).frame ≠ -1 → (s.entry i p).lruCtr < s.tick.count) (hcount : s.tick.count ≤ intMax)
    (hh : s.Handled f r s' ms) :
    ∃ c', Shows s' i c' ∧ (r.pid ≠ i → keys c' = keys c) ∧
      (r.pid = i → ∃ room, keys c' = touch (keys c) r.num.toNat room ∧ (NoFree f s → room = false)) := by
  by_cases hfull : ∀ ind, freeScan s.SM2 (f + 1) 0 = some ind → s.SM2 ind ≠ 1
  · obtain ⟨-, -, hown, hother⟩ := h.request I hr hold hcount hfull hh
    by_cases hpid : r.pid = i
    · refine ⟨_, (hown hpid).1, fun hne => absurd hpid hne, fun _ => ⟨false, keys_access c _, fun _ => rfl⟩⟩
    · exact ⟨c, (hother hpid).1, fun _ => rfl, fun heq => absurd heq hpid⟩
  · -- the search has found a free frame
    push Not at hfull
    obtain ⟨ind, hscan, hind⟩ := hfull
    have hfree : ¬ NoFree f s := fun hno => I.loadPage_full hscan hno hind
    obtain ⟨h0, hlt⟩ := hr
    rw [← I.mi r.pid] at hlt
    by_cases hpid : r.pid = i
    · cases hh with
      | idle hnum | exit hnum => omega
      | illegal _ hmi => omega
      | hit page hnum _ hframe =>
        rw [hpid] at hframe ⊢
        obtain ⟨hacc, hshows⟩ := h.hit hframe hold
        have hpage : r.num.toNat = page := by omega
        refine ⟨_, hshows, fun hne => absurd rfl hne, fun _ => ⟨false, ?_, fun hno => absurd hno hfree⟩⟩
        rw [hpage, ← keys_access, hacc]
      | fault page ind' hnum _ hframe hscan' =>
        rw [hpid] at hframe ⊢
        obtain rfl : ind = ind' := Option.some.inj (hscan.symm.trans hscan')
        have hpage : r.num.toNat = page := by omega
        refine ⟨_, h.room hframe hold hind, fun hne => absurd rfl hne, fun _ => ⟨true, ?_, fun hno => absurd hno hfree⟩⟩
        rw [hpage, touch_room fun hmem => h.mem_keys.1 hmem hframe]
        simp [keys]
    · refine ⟨c, h.congr fun p => ?_, fun _ => rfl, fun heq => absurd heq hpid⟩
      unfold Mmu.entry
      rw [hh.SM1_other (Ne.symm hpid)]

end Shows

/-! ## A run of page requests -/

/-- Of the pages that hold a frame the oldest stamp is behind the count. -/
theorem Recency.old (R : Recency past s) (hlen : past.length + 1 ≤ intMax) :
    s.tick.count = past.length + 1 ∧ ∀ p, (s.entry i p).frame ≠ -1 → (s.entry i p).lruCtr < s.tick.count := by
  have hcount : s.tick.count = past.length + 1 := by
    show int32 (s.count + 1) = _
    rw [R.count, int32_eq (by omega) hlen]
  refine ⟨hcount, fun p hp => ?_⟩
  have hle := lastUse_le past i (p := p)
  rw [R.lruCtr i p hp, hcount]
  omega

/-- In range, a fault is a miss. -/
theorem Shows.faults_iff (h : Shows s i c) (I : MmuInv f mi s) (hr : InRange mi r) :
    Mmu.Faults i (s, r) ↔ r.pid = i ∧ r.num.toNat ∉ keys c := by
  rw [h.mem_keys, not_not]
  constructor
  · rintro ⟨hpid, -, -, hframe⟩
    exact ⟨hpid, hframe⟩
  · rintro ⟨rfl, hframe⟩
    exact ⟨rfl, hr.1, by rw [I.mi]; exact hr.2, hframe⟩

/-- What the requests `as` do to process `i`, which had the cache `c` before. -/
structure Served (f : Nat) (mi : Fin k → Nat) (i : Fin k) (past : List (Request k)) (s : Mmu k) (c : List (Nat × Int))
    (as : List (Request k)) (x : Mmu k) (ps : List (Nat × Bool)) (c' : List (Nat × Int)) : Prop where
  inv : MmuInv f mi x
  recency : Recency (past ++ as) x
  pages : ps.map Prod.fst = pagesOf i as
  shows : Shows x i c'
  keys : keys c' = touches (keys c) ps
  faults : (x.SM1 i).totalPFs = (s.SM1 i).totalPFs + misses (LruCache.keys c) ps
  full : NoFree f s → NoFree f x ∧ ∀ z ∈ ps, z.2 = false

theorem NoFree.of_cells (h : ∀ g : Fin f, s.SM2 g.val ≠ 1) : NoFree f s := by
  intro g hg0 hg
  have hcell := h ⟨g.toNat, by omega⟩
  rwa [Int.toNat_of_nonneg hg0] at hcell

theorem NoFree.handled (I : MmuInv f mi s) (hfull : NoFree f s) (hr : InRange mi r) (hh : s.Handled f r s' ms) : NoFree f s' := by
  obtain ⟨h0, hlt⟩ := hr
  rw [← I.mi r.pid] at hlt
  cases hh with
  | idle hnum | exit hnum => omega
  | illegal _ hmi => omega
  | hit page => exact hfull
  | fault page ind hnum _ hframe hscan =>
    have hind : (s.tick.addPF r.pid).SM2 ind ≠ 1 := I.loadPage_full hscan hfull
    intro g hg0 hg
    rw [Mmu.SM2_loadPage _ _ _ hind]
    exact hfull g hg0 hg

theorem Served.step {ps : List (Nat × Bool)} (S : Served f mi i past s c as x ps c') (hr : InRange mi r)
    (hlen : (past ++ as).length + 1 ≤ intMax) (hs : x.step f r = some s') :
    ∃ ps' d, Served f mi i past s c (as ++ [r]) s' ps' d := by
  obtain ⟨ms, hh⟩ := Mmu.handled_of_step hs
  obtain ⟨hcount, hold⟩ := S.recency.old (i := i) hlen
  obtain ⟨d, hd, hother, hown⟩ := S.shows.serve S.inv hr hold (by omega) hh
  have htotals := congrArg Prod.fst (hh.totals i)
  simp only [Mmu.totals, S.shows.faults_iff S.inv hr] at htotals
  have hrecency : Recency (past ++ (as ++ [r])) s' := by
    rw [← List.append_assoc]
    exact S.recency.handled S.inv hlen hh
  have hfull := fun hno => NoFree.handled S.inv (S.full hno).1 hr hh
  have hinv : MmuInv f mi s' := S.inv.step hs
  by_cases hpid : r.pid = i
  · obtain ⟨room, hkeys, hroom⟩ := hown hpid
    refine ⟨ps ++ [(r.num.toNat, room)], d, hinv, hrecency, ?_, hd, ?_, ?_, fun hno => ⟨hfull hno, fun z hz => ?_⟩⟩
    · rw [pagesOf_append, if_pos hpid, List.map_append, S.pages, List.map_singleton]
    · rw [hkeys, touches_concat, S.keys]
    · rw [htotals, S.faults, misses_concat, ← S.keys, Nat.add_assoc]
      simp only [hpid, true_and, ite_not]
    · rcases List.mem_append.1 hz with hz | hz
      · exact (S.full hno).2 z hz
      · rw [List.mem_singleton.1 hz]
        exact hroom (S.full hno).1
  · refine ⟨ps, d, hinv, hrecency, ?_, hd, (hother hpid).trans S.keys, ?_, fun hno => ⟨hfull hno, (S.full hno).2⟩⟩
    · rw [pagesOf_append, if_neg hpid, S.pages]
    · rw [htotals, S.faults, if_neg fun h => hpid h.1, Nat.add_zero]

/-- By induction on the requests. -/
theorem served_of_run (I : MmuInv f mi s) (R : Recency past s) (hc : Shows s i c) (hrange : ∀ r ∈ as, InRange mi r)
    (hlen : (past ++ as).length ≤ intMax) (hrun : Trans.run (Mmu.step f) s as = some x) :
    ∃ ps c', Served f mi i past s c as x ps c' := by
  have h := Trans.run_inv (I := fun as x => (∀ r ∈ as, InRange mi r) → (past ++ as).length ≤ intMax →
    ∃ ps c', Served f mi i past s c as x ps c')
    (fun _ _ => ⟨[], c, I, by simpa using R, rfl, hc, rfl, rfl, fun hno => ⟨hno, by simp⟩⟩) (by
      intro as x r x' ih hx hrange hlen
      rw [← List.append_assoc, List.length_append, List.length_singleton] at hlen
      obtain ⟨ps, c', S⟩ := ih (fun r hr => hrange r (by simp [hr])) (by omega)
      exact S.step (hrange r (by simp)) hlen hx) hrun
  exact h hrange hlen

/-! ## More memory -/

/-- Without a free frame nothing has room. -/
theorem Served.eq_map {ps : List (Nat × Bool)} (S : Served f mi i past s c as x ps c') (hfull : NoFree f s) :
    ps = (pagesOf i as).map fun p => (p, false) := by
  rw [← S.pages, List.map_map]
  refine (List.map_id' ps).symm.trans (List.map_congr_left fun z hz => ?_)
  exact Prod.ext rfl ((S.full hfull).2 z hz)

/-- More pages in the same order. -/
theorem keys_sublist (hc : Shows s i c) (hd : Shows t i d)
    (hres : ∀ p, (s.entry i p).frame ≠ -1 → (t.entry i p).frame ≠ -1)
    (horder : ∀ p q, (s.entry i p).frame ≠ -1 → (s.entry i q).frame ≠ -1 → stampOf s i p < stampOf s i q →
      stampOf t i p < stampOf t i q) : (keys c).Sublist (keys d) := by
  have hsubset : keys c ⊆ keys d := fun p hp => hd.mem_keys.2 (hres p (hc.mem_keys.1 hp))
  have hsorted : (keys c).Pairwise fun p q => stampOf t i p < stampOf t i q :=
    hc.keys_sorted.imp_of_mem fun hp hq hlt => horder _ _ (hc.mem_keys.1 hp) (hc.mem_keys.1 hq) hlt
  exact List.sublist_of_subperm_of_pairwise (hc.keys_nodup.subperm hsubset) hsorted hd.keys_sorted

/-- With `t` the process holds what it holds with `s`, in the same order, and the requests of `bs` that are its own are
those of `as`: then so it stays, and it faults no more often. -/
theorem faults_le {f' : Nat} {past' : List (Request k)} (I : MmuInv f mi s) (R : Recency past s) (hfull : NoFree f s)
    (I' : MmuInv f' mi t) (R' : Recency past' t) (hc : Shows s i c) (hd : Shows t i d) (hsub : (keys c).Sublist (keys d))
    (has : ∀ r ∈ as, InRange mi r) (hbs : ∀ r ∈ bs, InRange mi r)
    (hsame : as.filter (fun r => r.pid = i) = bs.filter (fun r => r.pid = i))
    (hlen : (past ++ as).length ≤ intMax) (hlen' : (past' ++ bs).length ≤ intMax)
    (hx : Trans.run (Mmu.step f) s as = some x) (hy : Trans.run (Mmu.step f') t bs = some y) :
    (y.SM1 i).totalPFs + (s.SM1 i).totalPFs ≤ (x.SM1 i).totalPFs + (t.SM1 i).totalPFs ∧
      ∀ p, (x.entry i p).frame ≠ -1 → (y.entry i p).frame ≠ -1 := by
  obtain ⟨ps, c', S⟩ := served_of_run I R hc has hlen hx
  obtain ⟨qs, d', T⟩ := served_of_run I' R' hd hbs hlen' hy
  have hps : ps = qs.map fun z => (z.1, false) := by
    have hpages : pagesOf i as = pagesOf i bs := by rw [pagesOf, hsame, pagesOf]
    rw [S.eq_map hfull, hpages, ← T.pages, List.map_map]
    rfl
  have hmisses := misses_le_of_sublist hsub qs
  have hkeys := touches_sublist hsub qs
  rw [← hps] at hmisses hkeys
  refine ⟨?_, fun p hp => ?_⟩
  · rw [S.faults, T.faults]
    omega
  · rw [← T.shows.mem_keys, T.keys]
    rw [← S.shows.mem_keys, S.keys] at hp
    exact hkeys.subset hp

namespace Mmu

theorem share_mono {f' : Nat} (h : f ≤ f') (mi : Fin k → Nat) (i : Fin k) : share f mi i ≤ share f' mi i :=
  min_le_min_left _ (Nat.div_le_div_right (Nat.mul_le_mul_left _ h))

/-- At first the pages are in the order of their numbers. -/
theorem stampOf_init (f : Nat) (mi : Fin k → Nat) (i : Fin k) (p q : Nat) :
    stampOf (init f mi) i p < stampOf (init f mi) i q ↔ p < q := by
  rw [stampOf, stampOf, (init_fresh f mi).lruCtr, (init_fresh f mi).lruCtr, Prod.Lex.toLex_lt_toLex]
  simp

end Mmu

/-- **More frames, no more page faults**: with all frames given to the processes by `master`, no process faults less often
than with a larger memory, whatever the others request and whenever. -/
theorem more_frames_no_more_faults {k : Nat} (f f' : Nat) (mi : Fin k → Nat) (hle : f ≤ f')
    (hint : ∀ i, (mi i * f' : Nat) ≤ intMax) (hfull : NoFree f (Mmu.init f mi)) (i : Fin k) (as bs : List (Request k))
    (has : ∀ r ∈ as, InRange mi r) (hbs : ∀ r ∈ bs, InRange mi r)
    (hsame : as.filter (fun r => r.pid = i) = bs.filter (fun r => r.pid = i))
    (hlen : as.length ≤ intMax) (hlen' : bs.length ≤ intMax) (x y : Mmu k)
    (hx : Trans.run (Mmu.step f) (Mmu.init f mi) as = some x) (hy : Trans.run (Mmu.step f') (Mmu.init f' mi) bs = some y) :
    (y.SM1 i).totalPFs ≤ (x.SM1 i).totalPFs ∧ ∀ p, (x.entry i p).frame ≠ -1 → (y.entry i p).frame ≠ -1 := by
  have hint' : ∀ i, (mi i * f : Nat) ≤ intMax := fun i => by
    have hmul := Nat.mul_le_mul_left (mi i) hle
    have := hint i
    omega
  obtain ⟨c, hc⟩ := exists_shows (MmuInv.init f mi) i
  obtain ⟨d, hd⟩ := exists_shows (MmuInv.init f' mi) i
  have hsub : (keys c).Sublist (keys d) := by
    refine keys_sublist hc hd (fun p hp => ?_) fun p q _ _ hlt => ?_
    · rw [Mmu.resident_init hint'] at hp
      rw [Mmu.resident_init hint]
      exact hp.trans_le (Mmu.share_mono hle mi i)
    · rw [Mmu.stampOf_init] at hlt ⊢
      exact hlt
  obtain ⟨hfaults, hres⟩ := faults_le (MmuInv.init f mi) (Recency.init f mi) hfull (MmuInv.init f' mi) (Recency.init f' mi)
    hc hd hsub has hbs hsame (by simpa using hlen) (by simpa using hlen') hx hy
  have hzero := congrArg Prod.fst (Mmu.totals_init f mi i)
  have hzero' := congrArg Prod.fst (Mmu.totals_init f' mi i)
  simp only [Mmu.totals] at hzero hzero'
  exact ⟨by omega, hres⟩

/-- Process 0 goes through its three pages again and again, with two frames or with three; process 1 is in between, or not. -/
theorem more_frames_no_more_faults_two :
    let mi : Fin 2 → Nat := fun i => if i = 0 then 3 else 1
    let as : List (Request 2) := [⟨0, 2⟩, ⟨0, 0⟩, ⟨0, 1⟩, ⟨0, 2⟩]
    let bs : List (Request 2) := [⟨0, 2⟩, ⟨1, 0⟩, ⟨0, 0⟩, ⟨0, 1⟩, ⟨1, 0⟩, ⟨0, 2⟩]
    NoFree 4 (Mmu.init 4 mi) ∧ ∃ x y, Trans.run (Mmu.step 4) (Mmu.init 4 mi) as = some x ∧
      Trans.run (Mmu.step 8) (Mmu.init 8 mi) bs = some y ∧ (y.SM1 0).totalPFs ≤ (x.SM1 0).totalPFs := by
  intro mi as bs
  have hfull : NoFree 4 (Mmu.init 4 mi) := NoFree.of_cells (by decide +kernel)
  have hx : (Trans.run (Mmu.step 4) (Mmu.init 4 mi) as).isSome = true := by decide +kernel
  have hy : (Trans.run (Mmu.step 8) (Mmu.init 8 mi) bs).isSome = true := by decide +kernel
  obtain ⟨x, hx⟩ := Option.isSome_iff_exists.1 hx
  obtain ⟨y, hy⟩ := Option.isSome_iff_exists.1 hy
  exact ⟨hfull, x, y, hx, hy, (more_frames_no_more_faults 4 8 mi (by decide) (by decide) hfull 0 as bs (by decide) (by decide)
    (by decide) (by decide) (by decide) x y hx hy).1⟩

/-! ## Other victims -/

/-- **No other choice of victims is better by more than a factor**: with no free frame, a process with `n` frames faults
at most `n` times as often as it would with its victims chosen in any other way, from the same pages. -/
theorem faults_competitive {k : Nat} (f : Nat) (mi : Fin k → Nat) (past : List (Request k)) (s : Mmu k) (i : Fin k)
    (as : List (Request k)) (x : Mmu k) (n : Nat) (hpast : Trans.run (Mmu.step f) (Mmu.init f mi) past = some s)
    (hfull : NoFree f s) (has : ∀ r ∈ as, InRange mi r) (hlen : (past ++ as).length ≤ intMax)
    (hrun : Trans.run (Mmu.step f) s as = some x) (hother : Replacing (s.held i) (pagesOf i as) n) :
    (x.SM1 i).totalPFs ≤ (s.SM1 i).totalPFs + (s.held i).card * n := by
  obtain ⟨I, R⟩ := Recency.of_run hpast (by rw [List.length_append] at hlen; omega)
  obtain ⟨c, hc⟩ := exists_shows I i
  obtain ⟨ps, c', S⟩ := served_of_run I R hc has hlen hrun
  have hheld : s.held i = (keys c).toFinset := by
    ext p
    rw [Mmu.mem_held I, List.mem_toFinset, hc.mem_keys]
  rw [hheld] at hother ⊢
  have hmisses := misses_le_mul hother hc.keys_nodup
  rw [← S.eq_map hfull] at hmisses
  rw [S.faults, List.toFinset_card_of_nodup hc.keys_nodup]
  omega

/-- Three pages in turn with two frames: every request is a fault, where a better choice would keep page 0. -/
theorem faults_competitive_turns :
    let as : List (Request 1) := [⟨0, 2⟩, ⟨0, 0⟩, ⟨0, 1⟩, ⟨0, 2⟩]
    ∃ x, Trans.run (Mmu.step 2) (Mmu.init 2 fun _ => 3) as = some x ∧
      Replacing ((Mmu.init 2 fun _ : Fin 1 => 3).held 0) (pagesOf 0 as) 2 ∧
      (x.SM1 0).totalPFs ≤ ((Mmu.init 2 fun _ : Fin 1 => 3).SM1 0).totalPFs + ((Mmu.init 2 fun _ : Fin 1 => 3).held 0).card * 2 := by
  intro as
  have hfull : NoFree 2 (Mmu.init 2 fun _ : Fin 1 => 3) := NoFree.of_cells (by decide +kernel)
  have hx : (Trans.run (Mmu.step 2) (Mmu.init 2 fun _ : Fin 1 => 3) as).isSome = true := by decide +kernel
  obtain ⟨x, hx⟩ := Option.isSome_iff_exists.1 hx
  have hheld : (Mmu.init 2 fun _ : Fin 1 => 3).held 0 = {0, 1} := by decide +kernel
  have hother : Replacing ((Mmu.init 2 fun _ : Fin 1 => 3).held 0) (pagesOf 0 as) 2 := by
    rw [hheld]
    have hpages : pagesOf 0 as = [2, 0, 1, 2] := by decide
    rw [hpages]
    exact .miss 1 (by decide) (by decide) (.hit (by decide) (.miss 0 (by decide) (by decide) (.hit (by decide) (.nil _))))
  exact ⟨x, hx, hother, faults_competitive 2 (fun _ => 3) [] _ 0 as x 2 rfl hfull (by decide) (by decide) hx hother⟩

end OsLab.A8
