import Mathlib.Data.Prod.Lex
import OsLab.A8.Lru
import OsLab.Lib.LruCache

/-!
# A process pages as if it were alone (A8/mmu.c)

| here | there |
| --- | --- |
| `Mmu.serve`     | the loop of mmu.c:78-273 with the messages sent so far |
| `repliesTo`     | the `num` of the type 2 messages a process gets: a frame on a hit, -1 on a fault |
| `Shows`         | the pages of a process that hold a frame, in the order of `lru_ctr`, are an `LruCache` |
| `Isolated.step` | without a free frame a page request is an access of that cache (mmu.c:181-260), and the other processes' requests leave it alone |

The stamps depend on everybody's requests, but only their order matters, so two sequences with the same
requests of process `i` make the same accesses. This ends when `count` overflows: a stamp that wrapped is
older than all others.
-/

namespace OsLab.A8

open LruCache

variable {k f : Nat} {mi : Fin k → Nat} {s s' : Mmu k} {i : Fin k} {r : Request k} {ms : List (MmuMsg k)}

def Mmu.serve (f : Nat) (x : Mmu k × List (MmuMsg k)) (r : Request k) : Option (Mmu k × List (MmuMsg k)) :=
  if x.1.terminatedProcesses < k then (x.1.handle f r).map fun y => (y.1, x.2 ++ y.2) else none

def repliesTo (i : Fin k) (ms : List (MmuMsg k)) : List Int :=
  ms.filterMap fun
    | .reply num pid => if pid = i then some num else none
    | .sched _ _ => none

/-- A request for a page below `m_i`. -/
def InRange (mi : Fin k → Nat) (r : Request k) : Prop := 0 ≤ r.num ∧ r.num < mi r.pid

instance (mi : Fin k → Nat) (r : Request k) : Decidable (InRange mi r) := inferInstanceAs (Decidable (_ ∧ _))

def NoFree (f : Nat) (s : Mmu k) : Prop := ∀ g : Int, 0 ≤ g → g < f → s.SM2 g ≠ 1

/-- The pages process `i` requests. -/
def pagesOf (i : Fin k) (rs : List (Request k)) : List Nat := (rs.filter fun r => r.pid = i).map fun r => r.num.toNat

/-- The order in which the pages of process `i` are replaced. -/
def stampOf (s : Mmu k) (i : Fin k) (p : Nat) : Int ×ₗ Nat := toLex ((s.entry i p).lruCtr, p)

structure Shows (s : Mmu k) (i : Fin k) (c : List (Nat × Int)) : Prop where
  mem : ∀ p g, (p, g) ∈ c ↔ (s.entry i p).frame = g ∧ g ≠ -1
  ordered : Ordered (stampOf s i) c

theorem Mmu.Older.stampOf_lt {p q : Nat} (h : s.Older i p q) : stampOf s i p < stampOf s i q :=
  Prod.Lex.toLex_lt_toLex.2 h

theorem stampOf_injective (s : Mmu k) (i : Fin k) : Function.Injective (stampOf s i) :=
  fun _ _ h => (Prod.mk.inj (toLex.injective h)).2

/-- The pages that hold a frame, sorted. -/
theorem exists_shows (I : MmuInv f mi s) (i : Fin k) : ∃ c, Shows s i c := by
  obtain ⟨c, hordered, hmem⟩ := exists_ordered (stampOf_injective s i) (fun p => (s.entry i p).frame)
    ((List.range (mi i)).filter fun p => (s.entry i p).frame ≠ -1) (List.nodup_range.filter _)
  refine ⟨c, fun p g => ?_, hordered⟩
  rw [hmem, List.mem_filter, List.mem_range, decide_eq_true_eq]
  constructor
  · rintro ⟨⟨-, hres⟩, rfl⟩
    exact ⟨rfl, hres⟩
  · rintro ⟨rfl, hres⟩
    exact ⟨⟨I.inside i p hres, hres⟩, rfl⟩

theorem Shows.congr {c : List (Nat × Int)} (h : Shows s i c) (hentry : ∀ p, s'.entry i p = s.entry i p) : Shows s' i c where
  mem p g := by rw [hentry]; exact h.mem p g
  ordered := by
    have hstamp : stampOf s' i = stampOf s i := funext fun p => by rw [stampOf, hentry, stampOf]
    rw [hstamp]
    exact h.ordered

namespace Mmu

theorem entry_loadPage_other {i' : Fin k} (hi : i' ≠ i) (page ind p : Nat) :
    (s.loadPage i page ind).entry i' p = s.entry i' p := by
  unfold loadPage
  split
  · rw [entry_setSM2, entry_modEntry, if_neg fun h => hi h.1]
  · split
    · unfold replace
      simp only [entry_modEntry, hi, false_and, if_false]
    · rfl

/-- A fault without a free frame. -/
theorem loadPage_noFree {page ind : Nat} (h : s.SM2 ind ≠ 1) :
    s.loadPage i page ind = (s.victimPage i).elim s (s.replace i page) := by
  rw [loadPage, if_neg h]
  cases s.victimPage i <;> rfl

/-- It neither gives nor takes a frame from the free list. -/
theorem SM2_loadPage (s : Mmu k) (i : Fin k) (page : Nat) {ind : Nat} (h : s.SM2 ind ≠ 1) :
    (s.loadPage i page ind).SM2 = s.SM2 := by
  rw [loadPage_noFree h]
  cases s.victimPage i <;> rfl

end Mmu

/-! ## One request -/

namespace Shows

variable {c : List (Nat × Int)} {page : Nat}

theorem mem_entry (h : Shows s i c) {x : Nat × Int} : x ∈ c ↔ (s.entry i x.1).frame = x.2 ∧ x.2 ≠ -1 := h.mem x.1 x.2

theorem resident (h : Shows s i c) {x : Nat × Int} (hx : x ∈ c) : (s.entry i x.1).frame ≠ -1 := by
  obtain ⟨hframe, hne⟩ := h.mem_entry.1 hx
  rwa [hframe]

theorem hit (h : Shows s i c) (hres : (s.entry i page).frame ≠ -1)
    (hold : ∀ p, (s.entry i p).frame ≠ -1 → (s.entry i p).lruCtr < s.tick.count) :
    access c page = (c.filter (fun y => y.1 ≠ page) ++ [(page, (s.entry i page).frame)], some (s.entry i page).frame) ∧
    Shows (s.tick.modEntry i page ({ · with lruCtr := s.tick.count })) i
      (c.filter (fun y => y.1 ≠ page) ++ [(page, (s.entry i page).frame)]) := by
  have hmem : (page, (s.entry i page).frame) ∈ c := (h.mem _ _).2 ⟨rfl, hres⟩
  have hframe : ∀ p,
      ((s.tick.modEntry i page ({ · with lruCtr := s.tick.count })).entry i p).frame = (s.entry i p).frame := by
    intro p
    rw [Mmu.entry_modEntry]
    split
    · next hp => rw [hp.2]; rfl
    · rfl
  refine ⟨h.ordered.access_hit hmem rfl, fun p g => ?_, h.ordered.hit rfl (fun y hy hne => ?_) (fun y hy hne => ?_)⟩
  · rw [List.mem_append, List.mem_filter, List.mem_singleton, hframe, h.mem, decide_eq_true_eq, Prod.mk.injEq]
    constructor
    · rintro (⟨hp, -⟩ | ⟨rfl, rfl⟩)
      · exact hp
      · exact ⟨rfl, hres⟩
    · rintro ⟨rfl, hg⟩
      rcases eq_or_ne p page with rfl | hne
      · exact .inr ⟨rfl, rfl⟩
      · exact .inl ⟨⟨rfl, hg⟩, hne⟩
  · rw [stampOf, Mmu.entry_modEntry, if_neg fun hp => hne hp.2]
    rfl
  · rw [stampOf, stampOf, Mmu.entry_modEntry, if_neg fun hp => hne hp.2, Mmu.entry_modEntry, if_pos ⟨rfl, rfl⟩,
      Prod.Lex.toLex_lt_toLex]
    exact .inl (hold y.1 (h.resident hy))

/-- The first page is the victim. -/
theorem victim (h : Shows s i c) (I : MmuInv f mi s)
    (hsmall : ∀ p, (s.entry i p).frame ≠ -1 → (s.entry i p).lruCtr < intMax) :
    s.victimPage i = c.head?.map Prod.fst := by
  rcases Mmu.victimPage_least I hsmall with ⟨hv, hnone⟩ | ⟨v, hv, hres, hleast⟩
  · cases c with
    | nil => exact hv
    | cons x c => exact absurd (hnone x.1) (h.resident List.mem_cons_self)
  · cases c with
    | nil => exact absurd ((h.mem v _).2 ⟨rfl, hres⟩) List.not_mem_nil
    | cons x c =>
      rw [hv, List.head?_cons, Option.map_some, Option.some.injEq]
      by_contra hne
      -- it would come before the first page
      have hlt := (hleast x.1 (h.resident List.mem_cons_self) (Ne.symm hne)).stampOf_lt
      have hmem : (v, (s.entry i v).frame) ∈ c :=
        (List.mem_cons.1 ((h.mem v _).2 ⟨rfl, hres⟩)).resolve_left fun heq => hne (Prod.mk.inj heq).1
      exact lt_asymm hlt ((List.pairwise_cons.1 h.ordered).1 _ hmem)

theorem fault (h : Shows s i c) (hno : (s.entry i page).frame = -1) (hvictim : s.victimPage i = c.head?.map Prod.fst)
    (hold : ∀ p, (s.entry i p).frame ≠ -1 → (s.entry i p).lruCtr < s.tick.count) {ind : Nat} (hind : s.SM2 ind ≠ 1) :
    (access c page).2 = none ∧ Shows ((s.tick.addPF i).loadPage i page ind) i (access c page).1 := by
  have hentry : ∀ p, (s.tick.addPF i).entry i p = s.entry i p := fun p => s.tick.entry_addPF i i p
  have hvictim' : (s.tick.addPF i).victimPage i = c.head?.map Prod.fst :=
    (Mmu.victimPage_congr (s.tick.mi_addPF i i) hentry).trans hvictim
  have hkeys : ∀ y ∈ c, y.1 ≠ page := fun y hy heq => h.resident hy (heq ▸ hno)
  rw [Mmu.loadPage_noFree (s := s.tick.addPF i) hind, hvictim']
  cases c with
  | nil => exact ⟨rfl, h.congr hentry⟩
  | cons x c =>
    obtain ⟨hlt, hrest⟩ := List.pairwise_cons.1 h.ordered
    have hx := h.mem_entry.1 List.mem_cons_self
    have hne : page ≠ x.1 := (hkeys x List.mem_cons_self).symm
    have hx' : ∀ g, (x.1, g) ∉ c := fun g hg => lt_irrefl _ (hlt (x.1, g) hg)
    rw [access_miss hkeys]
    refine ⟨rfl, fun p g => ?_, h.ordered.miss rfl (fun y hy => ?_) (fun y hy => ?_)⟩
    · show _ ↔ (((s.tick.addPF i).replace i page x.1).entry i p).frame = g ∧ g ≠ -1
      rw [Mmu.entry_replace _ i hne, List.mem_append, List.mem_singleton, Prod.mk.injEq]
      rcases eq_or_ne p page with rfl | hp
      · rw [if_pos ⟨rfl, rfl⟩]
        show _ ↔ ((s.tick.addPF i).entry i x.1).frame = g ∧ g ≠ -1
        rw [hentry, hx.1]
        constructor
        · rintro (hg | ⟨-, rfl⟩)
          · exact absurd rfl (hkeys (p, g) (List.mem_cons_of_mem x hg))
          · exact ⟨rfl, hx.2⟩
        · rintro ⟨rfl, -⟩
          exact .inr ⟨rfl, rfl⟩
      · rw [if_neg fun hp' => hp hp'.2, or_iff_left fun hp' => hp hp'.1]
        rcases eq_or_ne p x.1 with rfl | hpx
        · rw [if_pos ⟨rfl, rfl⟩]
          exact iff_of_false (hx' g) fun hg => hg.2 hg.1.symm
        · rw [if_neg fun hp' => hpx hp'.2, hentry, ← h.mem, List.mem_cons, or_iff_right fun heq => hpx (congrArg Prod.fst heq)]
    · have hyx : y.1 ≠ x.1 := fun heq => hx' y.2 (heq ▸ hy)
      show stampOf ((s.tick.addPF i).replace i page x.1) i y.1 = _
      rw [stampOf, Mmu.entry_replace _ i hne, if_neg fun hp => hkeys y (List.mem_cons_of_mem x hy) hp.2,
        if_neg fun hp => hyx hp.2, hentry, stampOf]
    · have hyx : y.1 ≠ x.1 := fun heq => hx' y.2 (heq ▸ hy)
      show stampOf ((s.tick.addPF i).replace i page x.1) i y.1 < stampOf ((s.tick.addPF i).replace i page x.1) i page
      rw [stampOf, stampOf, Mmu.entry_replace _ i hne, if_neg fun hp => hkeys y (List.mem_cons_of_mem x hy) hp.2,
        if_neg fun hp => hyx hp.2, hentry, Mmu.entry_replace _ i hne, if_pos ⟨rfl, rfl⟩, Prod.Lex.toLex_lt_toLex]
      exact .inl (hold y.1 (h.resident (List.mem_cons_of_mem x hy)))

/-- An access by process `i` itself, and nothing by another one. -/
theorem request (h : Shows s i c) (I : MmuInv f mi s) (hr : InRange mi r)
    (hold : ∀ p, (s.entry i p).frame ≠ -1 → (s.entry i p).lruCtr < s.tick.count) (hcount : s.tick.count ≤ intMax)
    (hfull : ∀ ind, freeScan s.SM2 (f + 1) 0 = some ind → s.SM2 ind ≠ 1) (hh : s.Handled f r s' ms) :
    s'.SM2 = s.SM2 ∧ s'.terminatedProcesses = s.terminatedProcesses ∧
    (r.pid = i → Shows s' i (access c r.num.toNat).1 ∧ repliesTo i ms = [(access c r.num.toNat).2.getD (-1)]) ∧
    (r.pid ≠ i → Shows s' i c ∧ repliesTo i ms = []) := by
  obtain ⟨h0, hlt⟩ := hr
  rw [← I.mi r.pid] at hlt
  obtain ⟨pid, num⟩ := r
  simp only at h0 hlt ⊢
  cases hh with
  | idle hnum => simp only at hnum; omega
  | exit hnum => simp only at hnum; omega
  | illegal _ hmi => simp only at hmi; omega
  | hit page hnum _ hframe =>
    simp only at hnum hframe ⊢
    obtain rfl : page = num.toNat := by omega
    refine ⟨rfl, rfl, ?_, fun hpid => ⟨h.congr fun p => ?_, by simp [repliesTo, hpid]⟩⟩
    · rintro rfl
      obtain ⟨hacc, hshows⟩ := h.hit hframe hold
      rw [hacc]
      exact ⟨hshows, by simp [repliesTo]⟩
    · rw [Mmu.entry_modEntry, if_neg fun hp => hpid hp.1.symm, Mmu.entry_tick]
  | fault page ind hnum _ hframe hscan =>
    simp only at hnum hframe ⊢
    obtain rfl : page = num.toNat := by omega
    have hind : s.SM2 ind ≠ 1 := hfull ind hscan
    refine ⟨Mmu.SM2_loadPage (s.tick.addPF pid) pid num.toNat hind,
      (Mmu.loadPage_counters (s.tick.addPF pid) pid num.toNat ind).2, ?_, fun hpid => ⟨h.congr fun p => ?_, by simp [repliesTo, hpid]⟩⟩
    · rintro rfl
      have hvictim := h.victim I fun p hp => by have := hold p hp; omega
      obtain ⟨hacc, hshows⟩ := h.fault hframe hvictim hold hind
      exact ⟨hshows, by rw [hacc]; simp [repliesTo]⟩
    · rw [Mmu.entry_loadPage_other (Ne.symm hpid), Mmu.entry_addPF, Mmu.entry_tick]

end Shows

/-! ## A sequence of requests -/

/-- After the requests `as` from `s`, with the cache `c` process `i` had there. -/
structure Isolated (f : Nat) (mi : Fin k → Nat) (i : Fin k) (past : List (Request k)) (s : Mmu k) (c : List (Nat × Int))
    (as : List (Request k)) (x : Mmu k × List (MmuMsg k)) : Prop where
  inv : MmuInv f mi x.1
  recency : Recency (past ++ as) x.1
  free : x.1.SM2 = s.SM2
  running : x.1.terminatedProcesses = s.terminatedProcesses
  pages : Shows x.1 i (accesses c (pagesOf i as)).1
  replies : repliesTo i x.2 = (accesses c (pagesOf i as)).2.map fun g => g.getD (-1)

theorem pagesOf_append (as : List (Request k)) :
    pagesOf i (as ++ [r]) = if r.pid = i then pagesOf i as ++ [r.num.toNat] else pagesOf i as := by
  unfold pagesOf
  rw [List.filter_append, List.map_append]
  by_cases h : r.pid = i
  · rw [if_pos h, List.filter_cons_of_pos (by simpa using h), List.filter_nil, List.map_singleton]
  · rw [if_neg h, List.filter_cons_of_neg (by simpa using h), List.filter_nil, List.map_nil, List.append_nil]

namespace Isolated

variable {past as : List (Request k)} {c : List (Nat × Int)} {x : Mmu k × List (MmuMsg k)}

theorem step (J : Isolated f mi i past s c as x) (hfull : NoFree f s) (hr : InRange mi r)
    (hlen : (past ++ (as ++ [r])).length ≤ intMax) (h : x.1.handle f r = some (s', ms)) :
    Isolated f mi i past s c (as ++ [r]) (s', x.2 ++ ms) := by
  obtain ⟨t, out⟩ := x
  obtain ⟨I, R, hfree, hrunning, hpages, hreplies⟩ := J
  simp only at I R hfree hrunning hpages hreplies h ⊢
  rw [← List.append_assoc, List.length_append, List.length_singleton] at hlen
  have hh := Mmu.handled_of_handle h
  have hcount : t.tick.count = ((past ++ as).length + 1 : Nat) := by
    show int32 (t.count + 1) = _
    rw [R.count, int32_eq (by omega) (by omega)]
    omega
  have hold : ∀ p, (t.entry i p).frame ≠ -1 → (t.entry i p).lruCtr < t.tick.count := by
    intro p hp
    have hle := lastUse_le (past ++ as) i (p := p)
    rw [R.lruCtr i p hp, hcount]
    omega
  obtain ⟨hSM2, hterm, hown, hother⟩ := hpages.request I hr hold (by omega)
    (fun ind hscan => I.loadPage_full hscan (by rw [hfree]; exact hfull)) hh
  have hR : Recency (past ++ (as ++ [r])) s' := by
    rw [← List.append_assoc]
    exact R.handled I (by omega) hh
  have happend : repliesTo i (out ++ ms) = repliesTo i out ++ repliesTo i ms := List.filterMap_append
  by_cases hpid : r.pid = i
  · obtain ⟨hshows, hms⟩ := hown hpid
    refine ⟨I.handle h, hR, hSM2.trans hfree, hterm.trans hrunning, ?_, ?_⟩
    · rw [pagesOf_append, if_pos hpid, accesses_append]
      exact hshows
    · rw [pagesOf_append, if_pos hpid, accesses_append, happend, hreplies, hms, List.map_append, List.map_singleton]
  · obtain ⟨hshows, hms⟩ := hother hpid
    refine ⟨I.handle h, hR, hSM2.trans hfree, hterm.trans hrunning, ?_, ?_⟩
    · rw [pagesOf_append, if_neg hpid]
      exact hshows
    · rw [pagesOf_append, if_neg hpid, happend, hreplies, hms, List.append_nil]

/-- By induction on the requests. -/
theorem of_run (I : MmuInv f mi s) (R : Recency past s) (hfull : NoFree f s) (hc : Shows s i c)
    (hrange : ∀ r ∈ as, InRange mi r) (hlen : (past ++ as).length ≤ intMax)
    (hrun : Trans.run (Mmu.serve f) (s, []) as = some x) : Isolated f mi i past s c as x := by
  have h := Trans.run_inv (I := fun as x => (∀ r ∈ as, InRange mi r) → (past ++ as).length ≤ intMax →
    Isolated f mi i past s c as x) (fun _ _ => ⟨I, by simpa using R, rfl, rfl, hc, rfl⟩) (by
      intro as x r x' ih hx hrange hlen
      have hlen' : (past ++ as).length ≤ intMax := by
        simp only [List.length_append, List.length_singleton] at hlen ⊢
        omega
      unfold Mmu.serve at hx
      split at hx
      · obtain ⟨⟨s', ms⟩, hh, rfl⟩ := Option.map_eq_some_iff.1 hx
        exact (ih (fun r hr => hrange r (by simp [hr])) hlen').step hfull (hrange r (by simp)) hlen hh
      · cases hx) hrun
  exact h hrange hlen

/-- The MMU stays in its loop, and no request gets stuck. -/
theorem exists_run (I : MmuInv f mi s) (R : Recency past s) (hfull : NoFree f s) (hc : Shows s i c)
    (hk : s.terminatedProcesses < k) (hrange : ∀ r ∈ as, InRange mi r) (hlen : (past ++ as).length ≤ intMax) :
    ∃ x, Trans.run (Mmu.serve f) (s, []) as = some x := by
  induction as using List.reverseRecOn with
  | nil => exact ⟨_, rfl⟩
  | append_singleton as r ih =>
    have hrange' : ∀ r ∈ as, InRange mi r := fun r hr => hrange r (by simp [hr])
    have hlen' : (past ++ as).length ≤ intMax := by
      simp only [List.length_append, List.length_singleton] at hlen ⊢
      omega
    obtain ⟨x, hx⟩ := ih hrange' hlen'
    have J := of_run I R hfull hc hrange' hlen' hx
    obtain ⟨y, hy⟩ := J.inv.exists_handle (r := r) (.inr (.inr (hrange r (by simp)).1))
    refine ⟨(y.1, x.2 ++ y.2), ?_⟩
    rw [Trans.run_append, hx, Option.bind_some, Trans.run, Mmu.serve, if_pos (J.running ▸ hk), hy]
    rfl

end Isolated

/-- **Paging is local** while `count` does not overflow: of two sequences with the same requests of process `i`, it gets
the same replies and is left with the same frames. -/
theorem paging_independent {k : Nat} (f : Nat) (mi : Fin k → Nat) (past : List (Request k)) (s : Mmu k) (i : Fin k)
    (as bs : List (Request k)) (hpast : Trans.run (Mmu.step f) (Mmu.init f mi) past = some s) (hfull : NoFree f s)
    (has : ∀ r ∈ as, InRange mi r) (hbs : ∀ r ∈ bs, InRange mi r)
    (hsame : as.filter (fun r => r.pid = i) = bs.filter (fun r => r.pid = i))
    (hcas : (past ++ as).length ≤ intMax) (hcbs : (past ++ bs).length ≤ intMax) :
    (s.terminatedProcesses < k → (∃ x, Trans.run (Mmu.serve f) (s, []) as = some x) ∧
      ∃ y, Trans.run (Mmu.serve f) (s, []) bs = some y) ∧
    ∀ x y, Trans.run (Mmu.serve f) (s, []) as = some x → Trans.run (Mmu.serve f) (s, []) bs = some y →
      repliesTo i x.2 = repliesTo i y.2 ∧ ∀ p, (x.1.entry i p).frame = (y.1.entry i p).frame := by
  have hlen : past.length ≤ intMax := by
    rw [List.length_append] at hcas
    omega
  obtain ⟨I, R⟩ := Recency.of_run hpast hlen
  obtain ⟨c, hc⟩ := exists_shows I i
  refine ⟨fun hk => ⟨Isolated.exists_run I R hfull hc hk has hcas, Isolated.exists_run I R hfull hc hk hbs hcbs⟩,
    fun x y hx hy => ?_⟩
  have Jx := Isolated.of_run I R hfull hc has hcas hx
  have Jy := Isolated.of_run I R hfull hc hbs hcbs hy
  have hpages : pagesOf i as = pagesOf i bs := by rw [pagesOf, hsame, pagesOf]
  refine ⟨by rw [Jx.replies, hpages, Jy.replies], fun p => ?_⟩
  have hmem : ∀ g, (x.1.entry i p).frame = g ∧ g ≠ -1 ↔ (y.1.entry i p).frame = g ∧ g ≠ -1 := by
    intro g
    rw [← Jx.pages.mem, hpages, Jy.pages.mem]
  by_cases hp : (x.1.entry i p).frame = -1
  · by_contra hne
    exact absurd ((hmem _).2 ⟨rfl, fun hp' => hne (hp.trans hp'.symm)⟩).1 hne
  · exact ((hmem _).1 ⟨rfl, hp⟩).1.symm

/-- Process 1 requests its page before, between and after the requests of process 0, or not at all. -/
theorem paging_independent_two :
    let mi : Fin 2 → Nat := fun i => if i = 0 then 3 else 1
    let as : List (Request 2) := [⟨0, 1⟩, ⟨1, 0⟩, ⟨0, 2⟩, ⟨1, 0⟩, ⟨0, 0⟩]
    let bs : List (Request 2) := [⟨0, 1⟩, ⟨0, 2⟩, ⟨0, 0⟩]
    ∃ s, Trans.run (Mmu.step 3) (Mmu.init 3 mi) [⟨1, 0⟩] = some s ∧ ∃ x y, Trans.run (Mmu.serve 3) (s, []) as = some x ∧
      Trans.run (Mmu.serve 3) (s, []) bs = some y ∧ repliesTo 0 x.2 = [1, -1, -1] ∧ repliesTo 0 y.2 = [1, -1, -1] ∧
      ∀ p, (x.1.entry 0 p).frame = (y.1.entry 0 p).frame := by
  intro mi as bs
  have hcheck : (Trans.run (Mmu.step 3) (Mmu.init 3 mi) [⟨1, 0⟩]).any (fun s =>
      decide (s.terminatedProcesses < 2 ∧ s.SM2 0 ≠ 1 ∧ s.SM2 1 ≠ 1 ∧ s.SM2 2 ≠ 1) &&
      (Trans.run (Mmu.serve 3) (s, []) as).any fun x => repliesTo 0 x.2 = [1, -1, -1]) = true := by decide +kernel
  simp only [Option.any_eq_true, Bool.and_eq_true, decide_eq_true_eq] at hcheck
  obtain ⟨s, hs, ⟨hk, h0, h1, h2⟩, x, hx, hreplies⟩ := hcheck
  have hfull : NoFree 3 s := by
    intro g hg0 hg
    have hg' : g = 0 ∨ g = 1 ∨ g = 2 := by omega
    rcases hg' with rfl | rfl | rfl
    · exact h0
    · exact h1
    · exact h2
  obtain ⟨hrun, hagree⟩ := paging_independent 3 mi [⟨1, 0⟩] s 0 as bs hs hfull (by decide) (by decide) (by decide)
    (by decide) (by decide)
  obtain ⟨-, y, hy⟩ := hrun hk
  obtain ⟨hsame, hframes⟩ := hagree x y hx hy
  exact ⟨s, hs, x, y, hx, hy, hreplies, hsame ▸ hreplies, hframes⟩

/-! ## When `count` overflows -/

namespace Mmu

variable {p : Nat}

/-- The state after requests for a page that holds a frame, the last of them stamped `count`. -/
def touched (s : Mmu k) (i : Fin k) (p : Nat) (count : Int) : Mmu k :=
  { s with count := count }.modEntry i p ({ · with lruCtr := count })

theorem touched_touched (s : Mmu k) (i : Fin k) (p : Nat) (c c' : Int) :
    (s.touched i p c).touched i p c' = s.touched i p c' := by
  unfold touched modEntry
  simp only [Function.update_idem, Function.update_self]

theorem frame_touched (s : Mmu k) (i : Fin k) (p : Nat) (c : Int) (i' : Fin k) (p' : Nat) :
    ((s.touched i p c).entry i' p').frame = (s.entry i' p').frame := by
  unfold touched
  rw [entry_modEntry]
  split
  · next h => rw [h.1, h.2]; rfl
  · rfl

theorem step_hit (hk : s.terminatedProcesses < k) (hp : p < (s.SM1 i).mi) (hres : (s.entry i p).frame ≠ -1) :
    s.step f ⟨i, p⟩ = some (s.touched i p (int32 (s.count + 1))) := by
  have hhandle : s.handle f ⟨i, p⟩ = some (s.touched i p (int32 (s.count + 1)), [.reply (s.entry i p).frame i]) := by
    dsimp only [handle]
    rw [if_neg (by omega), if_neg (by omega), if_neg (by omega), if_neg (by omega)]
    exact if_pos hres
  rw [step, if_pos hk, hhandle]
  rfl

/-- They move nothing but the stamps. -/
theorem run_hits (hk : s.terminatedProcesses < k) (hp : p < (s.SM1 i).mi) (hres : (s.entry i p).frame ≠ -1) (n : Nat) :
    Trans.run (step f) s (List.replicate (n + 1) ⟨i, p⟩) = some (s.touched i p (int32 (s.count + (n + 1 : Nat)))) := by
  induction n with
  | zero =>
    rw [List.replicate_one, Trans.run, step_hit hk hp hres]
    rfl
  | succ n ih =>
    have hcount : int32 ((s.touched i p (int32 (s.count + (n + 1 : Nat)))).count + 1) =
        int32 (s.count + (n + 1 + 1 : Nat)) := by
      show Int.bmod (Int.bmod _ _ + 1) _ = Int.bmod _ _
      rw [Int.bmod_add_bmod, Int.natCast_add (n + 1) 1, Int.natCast_one, Int.add_assoc]
    rw [List.replicate_succ', Trans.run_append, ih, Option.bind_some, Trans.run, step_hit (by exact hk)
      (by rw [touched, mi_modEntry]; exact hp) (by rw [frame_touched]; exact hres), touched_touched, hcount]
    rfl

theorem exists_serve {rs : List (Request k)} (ms : List (MmuMsg k)) (h : Trans.run (step f) s rs = some s') :
    ∃ ms', Trans.run (serve f) (s, ms) rs = some (s', ms') := by
  induction rs generalizing s ms with
  | nil =>
    rw [Trans.run, Option.some.injEq] at h
    exact ⟨ms, by rw [Trans.run, h]⟩
  | cons r rs ih =>
    obtain ⟨t, hstep, h⟩ := Option.bind_eq_some_iff.1 h
    unfold step at hstep
    split at hstep
    · next hk =>
      obtain ⟨y, hy, rfl⟩ := Option.map_eq_some_iff.1 hstep
      obtain ⟨ms', hms'⟩ := ih (ms ++ y.2) h
      refine ⟨ms', ?_⟩
      rw [Trans.run, serve, if_pos hk, hy]
      exact hms'
    · cases hstep

end Mmu

/-- Process 0 has three pages and gets frames 0 and 1, process 1 has one page and takes frame 2. In the second sequence
process 1 requests it until the next stamp is negative: page 1, which process 0 used last, makes room instead of page 0. -/
theorem overflow_evicts_youngest :
    let mi : Fin 2 → Nat := fun i => if i = 0 then 3 else 1
    let as : List (Request 2) := [⟨0, 0⟩, ⟨0, 1⟩, ⟨0, 2⟩]
    let bs : List (Request 2) := ⟨0, 0⟩ :: (List.replicate 2147483645 ⟨1, 0⟩ ++ [⟨0, 1⟩, ⟨0, 2⟩])
    ∃ s, Trans.run (Mmu.step 3) (Mmu.init 3 mi) [⟨1, 0⟩] = some s ∧ NoFree 3 s ∧
      (∀ r ∈ as, InRange mi r) ∧ (∀ r ∈ bs, InRange mi r) ∧
      as.filter (fun r => r.pid = 0) = bs.filter (fun r => r.pid = 0) ∧
      ∃ x y, Trans.run (Mmu.serve 3) (s, []) as = some x ∧ Trans.run (Mmu.serve 3) (s, []) bs = some y ∧
        (x.1.entry 0 0).frame = -1 ∧ (y.1.entry 0 0).frame = 0 := by
  intro mi as bs
  have hcheck : (Trans.run (Mmu.step 3) (Mmu.init 3 mi) [⟨1, 0⟩]).any (fun s =>
      decide (s.SM2 0 ≠ 1 ∧ s.SM2 1 ≠ 1 ∧ s.SM2 2 ≠ 1) &&
      (Trans.run (Mmu.step 3) s as).any (fun x => (x.entry 0 0).frame = -1) &&
      (s.step 3 ⟨0, 0⟩).any fun t =>
        decide (t.terminatedProcesses < 2 ∧ 0 < (t.SM1 1).mi ∧ (t.entry 1 0).frame ≠ -1) &&
        (Trans.run (Mmu.step 3) (t.touched 1 0 (int32 (t.count + (2147483645 : Nat)))) [⟨0, 1⟩, ⟨0, 2⟩]).any
          fun y => (y.entry 0 0).frame = 0) = true := by decide +kernel
  simp only [Option.any_eq_true, Bool.and_eq_true, decide_eq_true_eq] at hcheck
  obtain ⟨s, hs, ⟨⟨h0, h1, h2⟩, x, hx, hx0⟩, t, ht, ⟨hk, hp, hres⟩, y, hy, hy0⟩ := hcheck
  refine ⟨s, hs, fun g hg0 hg => ?_, by decide, fun r hr => ?_, ?_, ?_⟩
  · have hg' : g = 0 ∨ g = 1 ∨ g = 2 := by omega
    rcases hg' with rfl | rfl | rfl
    · exact h0
    · exact h1
    · exact h2
  · simp only [bs, List.mem_cons, List.mem_append, List.mem_replicate, List.not_mem_nil, or_false] at hr
    rcases hr with rfl | ⟨-, rfl⟩ | rfl | rfl <;> exact ⟨by decide, by decide⟩
  · simp only [as, bs, List.filter_cons, List.filter_append, List.filter_replicate, List.filter_nil]
    rfl
  · obtain ⟨xs, hxs⟩ := Mmu.exists_serve [] hx
    have hhits : Trans.run (Mmu.step 3) t (List.replicate 2147483645 ⟨1, 0⟩)
        = some (t.touched 1 0 (int32 (t.count + (2147483645 : Nat)))) := Mmu.run_hits hk hp hres 2147483644
    have hrun : Trans.run (Mmu.step 3) s bs = some y := by
      rw [Trans.run, ht, Option.bind_some, Trans.run_append, hhits, Option.bind_some]
      exact hy
    obtain ⟨ys, hys⟩ := Mmu.exists_serve [] hrun
    exact ⟨_, _, hxs, hys, hx0, hy0⟩

end OsLab.A8
