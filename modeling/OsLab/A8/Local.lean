import Mathlib.Algebra.BigOperators.Group.Finset.Sigma
import Mathlib.Data.Fintype.Basic
import OsLab.A8.Lru

/-!
# Local replacement (A8/mmu.c:117-271)

A request of process `i` writes to its own page table and to the cells of the frames it holds or gets, so the others
keep what they have, and `i` gains what the free list loses (`card_held`).

A fault takes a free frame or the frame of another page of `i`. When there is neither, nothing is loaded, and the
scheduler is told all the same that the page is there (:262-265): the process faults on it again, for as long as the
others hold the frames (`fault_served_iff`).
-/

namespace OsLab.A8

open Function (update)

namespace Mmu

variable {k f : Nat} {mi : Fin k → Nat} {s s' : Mmu k} {i j : Fin k} {r : Request k} {ms : List (MmuMsg k)}

/-! ## The other processes -/

theorem SM1_setSM2 (s : Mmu k) (g v : Int) : (s.setSM2 g v).SM1 = s.SM1 := rfl

theorem SM1_modEntry_other (hj : j ≠ i) (p : Nat) (g) : (s.modEntry i p g).SM1 j = s.SM1 j :=
  Function.update_of_ne hj _ _

theorem SM1_releaseEntry_other (hj : j ≠ i) (p : Nat) : (releaseEntry i s p).SM1 j = s.SM1 j := by
  unfold releaseEntry
  split
  · exact SM1_modEntry_other hj p _
  · rfl

theorem SM1_release_other (s : Mmu k) (hj : j ≠ i) : (s.release i).SM1 j = s.SM1 j := by
  unfold release
  generalize List.range (s.SM1 i).mi = ps
  induction ps generalizing s with
  | nil => rfl
  | cons p ps ih => rw [List.foldl_cons, ih, SM1_releaseEntry_other hj]

theorem SM1_loadPage_other (s : Mmu k) (hj : j ≠ i) (page ind : Nat) : (s.loadPage i page ind).SM1 j = s.SM1 j := by
  unfold loadPage
  split
  · rw [SM1_setSM2, SM1_modEntry_other hj]
  · split
    · unfold replace
      rw [SM1_modEntry_other hj, SM1_modEntry_other hj, SM1_modEntry_other hj]
    · rfl

/-- The page tables of the others stay, counters included. -/
theorem Handled.SM1_other (h : s.Handled f r s' ms) (hj : j ≠ r.pid) : s'.SM1 j = s.SM1 j := by
  cases h with
  | idle => rfl
  | exit => exact SM1_release_other s.tick hj
  | illegal =>
    show update (s.tick.release r.pid).SM1 r.pid _ j = s.SM1 j
    rw [Function.update_of_ne hj]
    exact SM1_release_other s.tick hj
  | hit page => exact SM1_modEntry_other hj page _
  | fault page ind =>
    rw [SM1_loadPage_other _ hj]
    exact Function.update_of_ne hj _ _

/-! ## The frames a process holds -/

/-- The pages of process `i` that hold a frame. -/
def held (s : Mmu k) (i : Fin k) : Finset Nat := (Finset.range (s.SM1 i).mi).filter fun p => (s.entry i p).frame ≠ -1

/-- The frames that the free list marks free. -/
def freeFrames (f : Nat) (s : Mmu k) : Finset Nat := (Finset.range f).filter fun g : Nat => s.SM2 g = 1

theorem mem_held (I : MmuInv f mi s) {p : Nat} : p ∈ s.held i ↔ (s.entry i p).frame ≠ -1 := by
  rw [held, Finset.mem_filter, Finset.mem_range, I.mi, and_iff_right_iff_imp]
  exact I.inside i p

/-- The frames are those that are free and those that are held. -/
theorem card_frames (I : MmuInv f mi s) : (s.freeFrames f).card + ∑ i, (s.held i).card = f := by
  have hslots : ∀ a : Fin k × Nat, a ∈ (Finset.univ.sigma s.held).map (Equiv.sigmaEquivProd (Fin k) Nat).toEmbedding ↔
      s.own a ≠ -1 := by
    rintro ⟨i, p⟩
    rw [Finset.mem_map_equiv, Finset.mem_sigma]
    exact (and_iff_right (Finset.mem_univ _)).trans (mem_held I)
  have hcard := I.owns.card_free_add hslots
  rw [Finset.card_map, Finset.card_sigma] at hcard
  exact hcard

/-- What the process of a request gains the free list loses. -/
theorem card_held (I : MmuInv f mi s) (h : s.Handled f r s' ms) (I' : MmuInv f mi s') :
    (s'.held r.pid).card + (s'.freeFrames f).card = (s.held r.pid).card + (s.freeFrames f).card := by
  have hother : ∑ j ∈ Finset.univ.erase r.pid, (s'.held j).card = ∑ j ∈ Finset.univ.erase r.pid, (s.held j).card := by
    refine Finset.sum_congr rfl fun j hj => ?_
    have hsame := h.SM1_other (Finset.ne_of_mem_erase hj)
    unfold held entry
    rw [hsame]
  have hs := card_frames I
  have hs' := card_frames I'
  rw [← Finset.add_sum_erase _ _ (Finset.mem_univ r.pid)] at hs hs'
  omega

/-- The search finds a free frame when there is one. -/
theorem free_of_scan (I : MmuInv f mi s) {ind : Nat} (hscan : freeScan s.SM2 (f + 1) 0 = some ind) :
    s.SM2 ind = 1 ↔ (s.freeFrames f).Nonempty := by
  obtain ⟨hind, hstop, hbefore⟩ := freeScan_le hscan
  constructor
  · intro hfree
    have hlt := I.owns.range_of_one (g := (ind : Int)) (by omega) (by omega) hfree
    exact ⟨ind, Finset.mem_filter.2 ⟨Finset.mem_range.2 (by omega), hfree⟩⟩
  · rintro ⟨g, hg⟩
    obtain ⟨hg, hfree⟩ := Finset.mem_filter.1 hg
    have hg := Finset.mem_range.1 hg
    -- the search does not pass `g`, and the end marker is behind it
    have hle : ind ≤ g := by
      by_contra hlt
      exact (hbefore g (by omega) (by omega)).2 hfree
    rcases I.owns.zeroOne ind (by omega) (by omega) with h | h
    · omega
    · exact h

/-- `SM2` behind a fault. -/
theorem SM2_fault (s : Mmu k) (i : Fin k) (page ind : Nat) :
    (s.loadPage i page ind).SM2 = if s.SM2 ind = 1 then update s.SM2 ind 0 else s.SM2 := by
  unfold loadPage
  split
  · rfl
  · split <;> rfl

theorem freeFrames_congr (h : s'.SM2 = s.SM2) : s'.freeFrames f = s.freeFrames f := by
  unfold freeFrames
  rw [h]

theorem card_freeFrames_take {ind : Nat} (h : s'.SM2 = update s.SM2 (ind : Int) 0) (hind : ind < f)
    (hfree : s.SM2 ind = 1) : (s'.freeFrames f).card + 1 = (s.freeFrames f).card := by
  have herase : s'.freeFrames f = (s.freeFrames f).erase ind := by
    ext g
    unfold freeFrames
    rw [h, Finset.mem_erase, Finset.mem_filter, Finset.mem_filter]
    by_cases hg : g = ind
    · simp [hg]
    · rw [Function.update_of_ne (by omega)]
      simp [hg]
  have hmem : ind ∈ s.freeFrames f := Finset.mem_filter.2 ⟨Finset.mem_range.2 hind, hfree⟩
  rw [herase, Finset.card_erase_add_one hmem]

/-- A page request: nothing is gained but on a fault with a free frame. -/
theorem card_held_page (I : MmuInv f mi s) (h : s.Handled f r s' ms) (I' : MmuInv f mi s') {page : Nat}
    (hnum : r.num = page) (hpage : page < (s.SM1 r.pid).mi) :
    (s'.held r.pid).card = (s.held r.pid).card +
      if (s.entry r.pid page).frame = -1 ∧ (s.freeFrames f).Nonempty then 1 else 0 := by
  have hcard := card_held I h I'
  cases h with
  | idle hnum' => omega
  | exit hnum' => omega
  | illegal h0 hmi => omega
  | hit page' hnum' hlt hframe =>
    obtain rfl : page = page' := by omega
    have hkeep : freeFrames f (s.tick.modEntry r.pid page ({ · with lruCtr := s.tick.count })) = s.freeFrames f :=
      freeFrames_congr rfl
    rw [if_neg fun h => hframe h.1]
    rw [hkeep] at hcard
    omega
  | fault page' ind hnum' hlt hframe hscan =>
    obtain rfl : page = page' := by omega
    have hSM2 := SM2_fault (s.tick.addPF r.pid) r.pid page ind
    have hfree := free_of_scan I hscan
    by_cases hone : s.SM2 ind = 1
    · rw [if_pos ⟨hframe, hfree.1 hone⟩]
      have hind := I.owns.range_of_one (g := (ind : Int)) (by omega) (by have := (freeScan_le hscan).1; omega) hone
      have htake := card_freeFrames_take (s := s) (f := f) (hSM2.trans (if_pos hone)) (by omega) hone
      omega
    · rw [if_neg fun h => hone (hfree.2 h.2)]
      have hkeep := freeFrames_congr (s := s) (f := f) (hSM2.trans (if_neg hone))
      rw [hkeep] at hcard
      omega

/-- The end of a process leaves it without a frame. -/
theorem held_ended (I : MmuInv f mi s) (h : s.Handled f r s' ms) (I' : MmuInv f mi s')
    (hend : r.num = -9 ∨ ((s.SM1 r.pid).mi : Int) ≤ r.num) : s'.held r.pid = ∅ := by
  have hnone : ∀ p, (s'.entry r.pid p).frame = -1 := by
    intro p
    have It := I.tick
    cases h with
    | idle hnum => omega
    | exit => exact frame_release It r.pid p
    | illegal =>
      rw [entry_terminate, entry_addInvalidRef]
      exact frame_release It r.pid p
    | hit page hnum hlt => omega
    | fault page ind hnum hlt => omega
  ext p
  rw [mem_held I']
  simp [hnone p]

end Mmu

/-- **Replacement is local**: a request of one process leaves the page tables of the others and their frames alone, and
changes the number of its own frames only as the free list pays for it. -/
theorem local_replacement {k : Nat} (f : Nat) (mi : Fin k → Nat) (s s' : Mmu k) (r : Request k)
    (h : Trans.ReachIf (Mmu.step f) ValidRequest (Mmu.init f mi) s) (hs : s.step f r = some s') :
    (∀ j, j ≠ r.pid → s'.SM1 j = s.SM1 j) ∧
    (∀ j p, j ≠ r.pid → (s.entry j p).frame ≠ -1 → s.SM2 (s.entry j p).frame = 0 ∧ s'.SM2 (s.entry j p).frame = 0) ∧
    (s'.held r.pid).card + (s'.freeFrames f).card = (s.held r.pid).card + (s.freeFrames f).card ∧
    (r.num = -9 ∨ ((s.SM1 r.pid).mi : Int) ≤ r.num → (s'.held r.pid).card = 0) ∧
    (∀ page : Nat, r.num = page → page < (s.SM1 r.pid).mi →
      (s'.held r.pid).card = (s.held r.pid).card +
        if (s.entry r.pid page).frame = -1 ∧ (s.freeFrames f).Nonempty then 1 else 0) := by
  have I := MmuInv.of_reach h
  have I' := I.step hs
  obtain ⟨ms, hh⟩ := Mmu.handled_of_step hs
  refine ⟨fun j hj => hh.SM1_other hj, fun j p hj hframe => ?_, Mmu.card_held I hh I', fun hend => ?_,
    fun page hnum hpage => Mmu.card_held_page I hh I' hnum hpage⟩
  · have hsame : s'.entry j p = s.entry j p := by
      unfold Mmu.entry
      rw [hh.SM1_other hj]
    have hkeep := (I'.owns.range (j, p) (by rw [Mmu.own, hsame]; exact hframe)).2.2
    rw [Mmu.own, hsame] at hkeep
    exact ⟨(I.owns.range (j, p) hframe).2.2, hkeep⟩
  · rw [Mmu.held_ended I hh I' hend, Finset.card_empty]

/-- Two processes and three frames: process 1 takes the frame that `master` left. -/
theorem local_replacement_fault : ∃ s s' : Mmu 2, (Mmu.init 3 fun _ => 2).step 3 ⟨0, 0⟩ = some s ∧
    s.step 3 ⟨1, 1⟩ = some s' ∧ s'.SM1 0 = s.SM1 0 ∧ (s'.held 1).card = (s.held 1).card + 1 := by
  have hrun : ((Mmu.init 3 fun _ : Fin 2 => 2).step 3 ⟨0, 0⟩).any (fun s => (s.step 3 ⟨1, 1⟩).isSome ∧
      1 < (s.SM1 1).mi ∧ (s.entry 1 1).frame = -1 ∧ (s.freeFrames 3).Nonempty) = true := by decide
  obtain ⟨s, hs, hrun⟩ := (Option.any_eq_true _ _).1 hrun
  obtain ⟨hsome, hpage, hfault⟩ := of_decide_eq_true hrun
  obtain ⟨s', hs'⟩ := Option.isSome_iff_exists.1 hsome
  have hreach : Trans.ReachIf (Mmu.step 3) ValidRequest _ s := .single (.inr (.inr (by decide))) hs
  obtain ⟨hother, -, -, -, hheld⟩ := local_replacement 3 (fun _ => 2) s s' ⟨1, 1⟩ hreach hs'
  exact ⟨s, s', hs, hs', hother 0 (by decide), (hheld 1 rfl hpage).trans (by rw [if_pos hfault])⟩

/-! ## Behind a page fault -/

namespace Mmu

variable {k f : Nat} {mi : Fin k → Nat} {s s' : Mmu k} {i : Fin k} {p : Nat} {r : Request k} {ms : List (MmuMsg k)}

/-- A request for the page is answered with a frame, and the scheduler hears nothing of it. -/
def Hit (f : Nat) (s : Mmu k) (i : Fin k) (p : Nat) : Prop :=
  ∃ (t : Mmu k) (g : Int), s.handle f ⟨i, p⟩ = some (t, [.reply g i]) ∧ 0 ≤ g

theorem hit_iff (I : MmuInv f mi s) (hp : p < mi i) : Hit f s i p ↔ (s.entry i p).frame ≠ -1 := by
  have hpage : p < (s.SM1 i).mi := (I.mi i).symm ▸ hp
  constructor
  · rintro ⟨t, g, h, -⟩
    cases handled_of_handle h with
    | hit page hnum hlt hframe =>
      obtain rfl : p = page := by simp only at hnum; omega
      exact hframe
  · intro hframe
    have hgrant := (I.owns.range (i, p) hframe).1
    refine ⟨s.tick.modEntry i p ({ · with lruCtr := s.tick.count }), (s.entry i p).frame, ?_, hgrant⟩
    unfold handle
    dsimp only
    rw [if_neg (by omega), if_neg (by omega), if_neg (by omega), if_neg (by omega), Int.toNat_natCast, access]
    exact if_pos hframe

/-- The requests of others do not touch the page table. -/
theorem SM1_run_other {bs : List (Request k)} (hbs : ∀ r ∈ bs, r.pid ≠ i) (hrun : Trans.run (step f) s bs = some s') :
    s'.SM1 i = s.SM1 i := by
  induction bs generalizing s with
  | nil =>
    cases hrun
    rfl
  | cons r bs ih =>
    obtain ⟨t, hs, hrun⟩ := Option.bind_eq_some_iff.1 hrun
    obtain ⟨ms, hh⟩ := handled_of_step hs
    rw [ih (fun r' hr' => hbs r' (List.mem_cons_of_mem r hr')) hrun]
    exact hh.SM1_other (hbs r List.mem_cons_self).symm

/-- The search passes the pages without a frame and those as young as the youngest so far. -/
theorem foldl_victimStep_none (s : Mmu k) (i : Fin k) (qs : List Nat) (v : Int × Option Nat) :
    (qs.foldl (s.victimStep i) v).2 = none ↔
      v.2 = none ∧ ∀ q ∈ qs, (s.entry i q).frame ≠ -1 → v.1 ≤ (s.entry i q).lruCtr := by
  induction qs generalizing v with
  | nil => simp
  | cons q qs ih =>
    rw [List.foldl_cons, ih, List.forall_mem_cons]
    unfold victimStep
    split
    · next hno => simp [hno]
    · next hframe =>
      split
      · next hlt => simp [hframe, hlt]
      · next hle => simp [hframe, not_lt.1 hle]

/-- There is a victim when a page holds a frame and is not stamped `INT_MAX`. -/
theorem exists_victimPage_iff (I : MmuInv f mi s) (i : Fin k) :
    s.victimPage i ≠ none ↔ ∃ q, (s.entry i q).frame ≠ -1 ∧ (s.entry i q).lruCtr < intMax := by
  rw [victimPage, ne_eq, foldl_victimStep_none, I.mi]
  constructor
  · intro h
    by_contra hno
    exact h ⟨rfl, fun q _ hframe => not_lt.1 fun hlt => hno ⟨q, hframe, hlt⟩⟩
  · rintro ⟨q, hframe, hlt⟩ ⟨-, hall⟩
    exact absurd hlt (not_lt.2 (hall q (List.mem_range.2 (I.inside i q hframe)) hframe))

theorem frame_loadPage {ind : Nat} (hframe : (s.entry i p).frame = -1) :
    ((s.loadPage i p ind).entry i p).frame ≠ -1 ↔ s.SM2 ind = 1 ∨ s.victimPage i ≠ none := by
  unfold loadPage
  split
  · next hone =>
    rw [entry_setSM2, entry_modEntry, if_pos ⟨rfl, rfl⟩]
    simp only [hone, true_or, iff_true]
    omega
  · next hone =>
    rw [or_iff_right hone]
    split
    · next v hv =>
      have hres := (victimPage_frame hv).2
      have hne : p ≠ v := fun e => hres (e ▸ hframe)
      simp [entry_replace _ i hne, hres, hv]
    · next hv => simp [hframe, hv]

/-- The fault handler makes the page resident when it finds a free frame or a victim. -/
theorem frame_fault (I : MmuInv f mi s) (h : s.Handled f ⟨i, p⟩ s' ms) (hp : p < mi i) (hframe : (s.entry i p).frame = -1) :
    (s'.entry i p).frame ≠ -1 ↔
      (s.freeFrames f).Nonempty ∨ ∃ q, (s.entry i q).frame ≠ -1 ∧ (s.entry i q).lruCtr < intMax := by
  have hmi := I.mi i
  cases h with
  | idle hnum | exit hnum => simp only at hnum; omega
  | illegal h0 hle => simp only at hle; omega
  | hit page hnum hlt hres =>
    obtain rfl : p = page := by simp only at hnum; omega
    exact absurd hframe hres
  | fault page ind hnum hlt hno hscan =>
    obtain rfl : p = page := by simp only at hnum; omega
    have hvictim : (s.tick.addPF i).victimPage i = s.victimPage i :=
      victimPage_congr (mi_addPF s.tick i i) fun q => entry_addPF s.tick i i q
    rw [← free_of_scan I hscan, ← exists_victimPage_iff I, ← hvictim]
    exact frame_loadPage (s := s.tick.addPF i) (by rw [entry_addPF]; exact hframe)

end Mmu

/-- **A page fault is served** when a frame is free or process `i` has one to give up, stamped below `INT_MAX`, and only
then is its next request for the page a hit, whatever the others do in between. -/
theorem fault_served_iff {k : Nat} (f : Nat) (mi : Fin k → Nat) (s s' : Mmu k) (i : Fin k) (p : Nat)
    (h : Trans.ReachIf (Mmu.step f) ValidRequest (Mmu.init f mi) s) (hp : p < mi i) (hframe : (s.entry i p).frame = -1)
    (hs : s.step f ⟨i, p⟩ = some s') :
    (∀ (bs : List (Request k)) (t : Mmu k), (∀ r ∈ bs, r.pid ≠ i) → Trans.run (Mmu.step f) s' bs = some t →
      Mmu.Hit f t i p) ↔
    (s.freeFrames f).Nonempty ∨ ∃ q, (s.entry i q).frame ≠ -1 ∧ (s.entry i q).lruCtr < intMax := by
  have I := MmuInv.of_reach h
  have I' := I.step hs
  obtain ⟨ms, hh⟩ := Mmu.handled_of_step hs
  rw [← Mmu.frame_fault I hh hp hframe]
  constructor
  · intro hall
    exact (Mmu.hit_iff I' hp).1 (hall [] s' (by simp) rfl)
  · intro hres bs t hbs hrun
    have hkeep := Mmu.SM1_run_other hbs hrun
    have It : MmuInv f mi t := Trans.run_inv (I := fun _ t => MmuInv f mi t) I' (fun _ _ _ _ I hs => I.step hs) hrun
    rw [Mmu.hit_iff It hp, Mmu.entry, hkeep]
    exact hres

/-- The page that process 0 gives up makes room, and process 1 cannot take the frame. -/
theorem fault_served_iff_replaced : ∃ s' : Mmu 2, (Mmu.init 2 fun _ => 2).step 2 ⟨0, 1⟩ = some s' ∧
    ∀ (bs : List (Request 2)) (t : Mmu 2), (∀ r ∈ bs, r.pid ≠ 0) → Trans.run (Mmu.step 2) s' bs = some t →
      Mmu.Hit 2 t 0 1 := by
  have hrun : ((Mmu.init 2 fun _ : Fin 2 => 2).step 2 ⟨0, 1⟩).isSome = true := by decide
  obtain ⟨s', hs'⟩ := Option.isSome_iff_exists.1 hrun
  exact ⟨s', hs', (fault_served_iff 2 (fun _ => 2) _ s' 0 1 .refl (by decide) (by decide) hs').2
    (.inr ⟨0, by decide, by decide⟩)⟩

/-- Two processes of one page each and one frame: process 1 takes it, and process 0 faults for ever. -/
theorem fault_unserved : ¬ ∀ (f : Nat) (mi : Fin 2 → Nat) (s s' : Mmu 2) (i : Fin 2) (p : Nat),
    Trans.ReachIf (Mmu.step f) ValidRequest (Mmu.init f mi) s → p < mi i → (s.entry i p).frame = -1 →
    s.step f ⟨i, p⟩ = some s' → ∀ (bs : List (Request 2)) (t : Mmu 2), (∀ r ∈ bs, r.pid ≠ i) →
      Trans.run (Mmu.step f) s' bs = some t → Mmu.Hit f t i p := by
  intro h
  have hrun : ((Mmu.init 1 fun _ : Fin 2 => 1).step 1 ⟨1, 0⟩).any (fun s => (s.entry 0 0).frame = -1 ∧
      (s.step 1 ⟨0, 0⟩).any (fun s' => (s'.entry 0 0).frame = -1)) = true := by decide
  obtain ⟨s, hs, hrun⟩ := (Option.any_eq_true _ _).1 hrun
  obtain ⟨hframe, hrun⟩ := of_decide_eq_true hrun
  obtain ⟨s', hs', hframe'⟩ := (Option.any_eq_true _ _).1 hrun
  have hreach : Trans.ReachIf (Mmu.step 1) ValidRequest _ s := .single (.inr (.inr (by decide))) hs
  have hhit := h 1 (fun _ => 1) s s' 0 0 hreach (by decide) hframe hs' [] s' (by simp) rfl
  exact (Mmu.hit_iff ((MmuInv.of_reach hreach).step hs') (by decide)).1 hhit (of_decide_eq_true hframe')

end OsLab.A8
