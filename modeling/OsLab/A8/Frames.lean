import Mathlib.Algebra.BigOperators.Ring.Finset
import Mathlib.Algebra.Order.BigOperators.Group.List
import OsLab.A8.Mmu

/-!
# Frame ownership in the MMU (A8/mmu.c, A8/master.c)

Every page table entry is a slot and every frame a cell in the sense of `Owns`. The initial allocation
and a fault with a free frame `acquire`, an exit and an illegal reference `release`, and a replacement
is a `transfer`; so the invariant `MmuInv` holds in every state, and the search for a free frame
(mmu.c:222) stops at the end marker at the latest.
-/

namespace OsLab.A8

open Function (update)

/-- The numbers a process sends: a page, -9 or -2. -/
def ValidRequest {k : Nat} (_ : Mmu k) (r : Request k) : Prop := r.num = -9 ∨ r.num = -2 ∨ 0 ≤ r.num

instance {k : Nat} (s : Mmu k) (r : Request k) : Decidable (ValidRequest s r) :=
  inferInstanceAs (Decidable (_ ∨ _ ∨ _))

namespace Mmu

variable {k : Nat}

/-- The frame an entry of the page tables holds. -/
def own (s : Mmu k) (a : Fin k × Nat) : Int := (s.entry a.1 a.2).frame

theorem own_modEntry (s : Mmu k) (i : Fin k) (j : Nat) (g) :
    (s.modEntry i j g).own = update s.own (i, j) (g (s.entry i j)).frame := by
  funext ⟨i', j'⟩
  unfold own
  rw [entry_modEntry]
  by_cases h : i' = i ∧ j' = j
  · obtain ⟨rfl, rfl⟩ := h
    simp
  · rw [if_neg h, Function.update_of_ne fun e => h (Prod.mk.inj e)]

end Mmu

/-- What holds of the MMU's memory before and after every request. -/
structure MmuInv {k : Nat} (f : Nat) (mi : Fin k → Nat) (s : Mmu k) : Prop where
  owns : Owns f s.own s.SM2
  valid : ∀ i j, (s.entry i j).validBit = 1 ↔ (s.entry i j).frame ≠ -1
  inside : ∀ i j, (s.entry i j).frame ≠ -1 → j < mi i
  mi : ∀ i, (s.SM1 i).mi = mi i

namespace MmuInv

variable {k f : Nat} {mi : Fin k → Nat} {s s' : Mmu k} {i : Fin k} {j : Nat}

theorem build (f : Nat) (mi : Fin k → Nat) : MmuInv f mi (Mmu.build f mi) where
  owns := Owns.empty (Fin k × Nat) f
  valid i j := by simp [Mmu.build, Mmu.entry]
  inside i j h := absurd rfl h
  mi i := rfl

/-- What a step does to the other fields does not matter. -/
theorem congr (I : MmuInv f mi s) (hframe : ∀ i j, (s'.entry i j).frame = (s.entry i j).frame)
    (hvalid : ∀ i j, (s'.entry i j).validBit = (s.entry i j).validBit) (hSM2 : s'.SM2 = s.SM2)
    (hmi : ∀ i, (s'.SM1 i).mi = (s.SM1 i).mi) : MmuInv f mi s' where
  owns := by
    have hown : s'.own = s.own := funext fun a => hframe a.1 a.2
    rw [hown, hSM2]
    exact I.owns
  valid i j := by rw [hframe, hvalid]; exact I.valid i j
  inside i j h := I.inside i j (by rwa [hframe] at h)
  mi i := (hmi i).trans (I.mi i)

/-- An entry without a frame gets a free one. -/
theorem acquire (I : MmuInv f mi s) {g : Int} {e : PageEntry → PageEntry} (hno : (s.entry i j).frame = -1)
    (hj : j < mi i) (h0 : 0 ≤ g) (hg : g < f) (hfree : s.SM2 g = 1) (hframe : (e (s.entry i j)).frame = g)
    (hvalid : (e (s.entry i j)).validBit = 1) : MmuInv f mi ((s.setSM2 g 0).modEntry i j e) where
  owns := by
    rw [Mmu.own_modEntry, Mmu.entry_setSM2, hframe]
    exact I.owns.acquire hno h0 hg hfree
  valid i' j' := by
    rw [Mmu.entry_modEntry, Mmu.entry_setSM2, Mmu.entry_setSM2]
    split
    · rw [hframe, hvalid]; exact iff_of_true rfl (by omega)
    · exact I.valid i' j'
  inside i' j' h := by
    rw [Mmu.entry_modEntry, Mmu.entry_setSM2, Mmu.entry_setSM2] at h
    split at h
    · rename_i he; obtain ⟨rfl, rfl⟩ := he; exact hj
    · exact I.inside i' j' h
  mi i' := by rw [Mmu.mi_modEntry]; exact I.mi i'

/-- The loop body that releases a frame. -/
theorem releaseEntry (I : MmuInv f mi s) (i : Fin k) (j : Nat) : MmuInv f mi (Mmu.releaseEntry i s j) := by
  unfold Mmu.releaseEntry
  split
  · rename_i hne
    refine ⟨?_, fun i' j' => ?_, fun i' j' h => ?_, fun i' => ?_⟩
    · rw [Mmu.own_modEntry]
      exact I.owns.release (a := (i, j)) hne
    · rw [Mmu.entry_modEntry, Mmu.entry_setSM2, Mmu.entry_setSM2]
      split
      · simp
      · exact I.valid i' j'
    · rw [Mmu.entry_modEntry, Mmu.entry_setSM2, Mmu.entry_setSM2] at h
      split at h
      · exact absurd rfl h
      · exact I.inside i' j' h
    · rw [Mmu.mi_modEntry]; exact I.mi i'
  · exact I

theorem release (I : MmuInv f mi s) (i : Fin k) : MmuInv f mi (s.release i) := by
  unfold Mmu.release
  generalize List.range (s.SM1 i).mi = js
  induction js generalizing s with
  | nil => exact I
  | cons j js ih => exact ih (I.releaseEntry i j)

theorem addInvalidRef (I : MmuInv f mi s) (i : Fin k) : MmuInv f mi (s.addInvalidRef i) :=
  I.congr (by simp) (by simp) rfl (by simp)

theorem addPF (I : MmuInv f mi s) (i : Fin k) : MmuInv f mi (s.addPF i) :=
  I.congr (by simp) (by simp) rfl (by simp)

end MmuInv

/-! ## The page fault handler -/

namespace Mmu

variable {k : Nat}

/-- The loop over the candidates keeps a page that holds a frame. -/
theorem foldl_victimStep (s : Mmu k) (i : Fin k) (js : List Nat) (v : Int × Option Nat) {p : Nat}
    (h : (js.foldl (s.victimStep i) v).2 = some p) : v.2 = some p ∨ p ∈ js ∧ (s.entry i p).frame ≠ -1 := by
  induction js generalizing v with
  | nil => exact .inl h
  | cons j js ih =>
    rcases ih _ h with hv | ⟨hp, hframe⟩
    · unfold victimStep at hv
      split at hv
      · exact .inl hv
      · rename_i hne
        split at hv
        · cases hv; exact .inr ⟨by simp, hne⟩
        · exact .inl hv
    · exact .inr ⟨by simp [hp], hframe⟩

/-- **The victim** is a page of the process that holds a frame. -/
theorem victimPage_frame {s : Mmu k} {i : Fin k} {p : Nat} (h : s.victimPage i = some p) :
    p < (s.SM1 i).mi ∧ (s.entry i p).frame ≠ -1 := by
  rcases s.foldl_victimStep i _ _ h with h | ⟨hp, hframe⟩
  · cases h
  · exact ⟨List.mem_range.1 hp, hframe⟩

/-- The entries after the assignments of a replacement. -/
theorem entry_replace (s : Mmu k) (i : Fin k) {page victim : Nat} (hne : page ≠ victim) (i' : Fin k) (j' : Nat) :
    (s.replace i page victim).entry i' j' =
      if i' = i ∧ j' = page then
        { s.entry i page with frame := (s.entry i victim).frame, validBit := 1, lruCtr := s.count }
      else if i' = i ∧ j' = victim then { s.entry i victim with frame := -1, validBit := 0 }
      else s.entry i' j' := by
  simp only [replace, entry_modEntry, true_and, if_neg hne, if_neg hne.symm, if_true]
  split
  · rfl
  · split <;> rfl

end Mmu

namespace MmuInv

variable {k f : Nat} {mi : Fin k → Nat} {s s' : Mmu k} {i : Fin k} {page : Nat}

theorem replace (I : MmuInv f mi s) {victim : Nat} (hno : (s.entry i page).frame = -1) (hp : page < mi i)
    (hv : (s.entry i victim).frame ≠ -1) : MmuInv f mi (s.replace i page victim) := by
  have hne : page ≠ victim := fun e => hv (e ▸ hno)
  have hentry := s.entry_replace i hne
  refine ⟨?_, fun i' j' => ?_, fun i' j' h => ?_, fun i' => ?_⟩
  · have hown : (s.replace i page victim).own =
        update (update s.own (i, page) (s.own (i, victim))) (i, victim) (-1) := by
      funext ⟨i', j'⟩
      simp only [Mmu.own, hentry, Function.update_apply, Prod.mk.injEq]
      by_cases h1 : i' = i ∧ j' = page
      · obtain ⟨rfl, rfl⟩ := h1
        simp [hne]
      · rw [if_neg h1, if_neg h1]
        split <;> rfl
    rw [hown]
    exact I.owns.transfer hno hv
  · rw [hentry]
    split
    · exact iff_of_true rfl hv
    · split
      · simp
      · exact I.valid i' j'
  · rw [hentry] at h
    split at h
    · rename_i he; obtain ⟨rfl, rfl⟩ := he; exact hp
    · split at h
      · exact absurd rfl h
      · exact I.inside i' j' h
  · simp only [Mmu.replace, Mmu.mi_modEntry]
    exact I.mi i'

theorem loadPage (I : MmuInv f mi s) {ind : Nat} (hno : (s.entry i page).frame = -1) (hp : page < mi i)
    (hind : ind ≤ f) : MmuInv f mi (s.loadPage i page ind) := by
  unfold Mmu.loadPage
  split
  · rename_i hfree
    have hlt : (ind : Int) < f := I.owns.range_of_one (by omega) (by omega) hfree
    exact I.acquire (e := fun e => { e with frame := ind, validBit := 1, lruCtr := s.count }) hno hp
      (by omega) hlt hfree rfl rfl
  · split
    · rename_i v hv
      exact I.replace hno hp (Mmu.victimPage_frame hv).2
    · exact I

/-! ## One request -/

theorem tick (I : MmuInv f mi s) : MmuInv f mi s.tick := ⟨I.owns, I.valid, I.inside, I.mi⟩

theorem terminate (I : MmuInv f mi s) : MmuInv f mi s.terminate :=
  I.congr (fun _ _ => rfl) (fun _ _ => rfl) rfl fun _ => rfl

/-- The page gets a new stamp. -/
theorem stamp (I : MmuInv f mi s) (n : Int) : MmuInv f mi (s.modEntry i page ({ · with lruCtr := n })) := by
  refine I.congr (fun i' j' => ?_) (fun i' j' => ?_) rfl (by simp)
  · rw [Mmu.entry_modEntry]
    split <;> simp_all
  · rw [Mmu.entry_modEntry]
    split <;> simp_all

theorem handle (I : MmuInv f mi s) {r : Request k} {ms : List (MmuMsg k)} (h : s.handle f r = some (s', ms)) :
    MmuInv f mi s' := by
  cases Mmu.handled_of_handle h with
  | idle => exact I.tick
  | exit => exact (I.tick.release r.pid).terminate
  | illegal => exact ((I.tick.release r.pid).addInvalidRef r.pid).terminate
  | hit page => exact I.tick.stamp _
  | fault page ind hnum hpage hframe hscan =>
    have hind := (freeScan_le hscan).1
    rw [I.mi] at hpage
    exact (I.tick.addPF r.pid).loadPage (by simpa using hframe) hpage (by omega)

theorem step (I : MmuInv f mi s) {r : Request k} (h : s.step f r = some s') : MmuInv f mi s' := by
  unfold Mmu.step at h
  split at h
  · obtain ⟨⟨t, ms⟩, hh, rfl⟩ := Option.map_eq_some_iff.1 h
    exact I.handle hh
  · cases h

/-- **No request gets stuck**: a valid one is handled without a read past the free list. -/
theorem exists_handle (I : MmuInv f mi s) {r : Request k} (hr : ValidRequest s r) : ∃ x, s.handle f r = some x := by
  dsimp only [Mmu.handle]
  split
  · exact ⟨_, rfl⟩
  split
  · exact ⟨_, rfl⟩
  split
  · exact ⟨_, rfl⟩
  split
  · unfold ValidRequest at hr
    omega
  · unfold Mmu.access
    split
    · exact ⟨_, rfl⟩
    · obtain ⟨g, -, hg⟩ := exists_freeScan (i := 0) I.owns.endMark (Nat.zero_le f)
      exact ⟨_, by rw [Option.map_eq_some_iff]; exact ⟨g, hg, rfl⟩⟩

end MmuInv

/-! ## The initial allocation -/

namespace Mmu

variable {k : Nat}

/-- The pages that get no frame any more are those that held none. -/
structure AllocInv (f : Nat) (mi : Fin k → Nat) (a : Mmu k × Int) : Prop where
  inv : MmuInv f mi a.1
  nonneg : 0 ≤ a.2
  free : ∀ g : Int, a.2 ≤ g → g < f → a.1.SM2 g = 1

variable {f : Nat} {mi : Fin k → Nat} {i : Fin k} {q : Int} {a : Mmu k × Int}

/-- The inner loop gives at most `page_frames - count` further frames, to pages of process `i`. -/
theorem allocPages_inv (js : List Nat) (count : Int) (A : AllocInv f mi a) (hnodup : js.Nodup)
    (hjs : ∀ j ∈ js, j < mi i ∧ (a.1.entry i j).frame = -1) (hq : a.2 + (q - count) ≤ f) :
    AllocInv f mi (allocPages i q js count a) ∧ (allocPages i q js count a).2 ≤ a.2 + max 0 (q - count) ∧
      ∀ i' j, i' ≠ i → (allocPages i q js count a).1.entry i' j = a.1.entry i' j := by
  induction js generalizing count a with
  | nil => exact ⟨A, by simp only [allocPages]; omega, fun _ _ _ => rfl⟩
  | cons j js ih =>
    obtain ⟨s, fn⟩ := a
    unfold allocPages
    split
    · exact ⟨A, by dsimp only; omega, fun _ _ _ => rfl⟩
    · have hlt : fn < f := by dsimp only at hq; omega
      have h0 : 0 ≤ fn := A.nonneg
      obtain ⟨hj, hno⟩ := hjs j (by simp)
      rw [List.nodup_cons] at hnodup
      have A' : AllocInv f mi ((s.setSM2 fn 0).modEntry i j ({ · with frame := fn, validBit := 1 }), fn + 1) := by
        refine ⟨?_, by dsimp only; omega, fun g hg hgf => ?_⟩
        · exact A.inv.acquire (e := fun e => { e with frame := fn, validBit := 1 }) hno hj A.nonneg hlt
            (A.free fn le_rfl hlt) rfl rfl
        dsimp only at hg
        rw [SM2_modEntry, SM2_setSM2, Function.update_of_ne (by omega)]
        exact A.free g (by dsimp only; omega) hgf
      have hjs' : ∀ j' ∈ js, j' < mi i ∧
          (((s.setSM2 fn 0).modEntry i j ({ · with frame := fn, validBit := 1 })).entry i j').frame = -1 := by
        intro j' hj'
        have hne : j' ≠ j := fun e => hnodup.1 (e ▸ hj')
        rw [entry_modEntry, if_neg fun e => hne e.2]
        exact hjs j' (by simp [hj'])
      obtain ⟨hinv, hle, hother⟩ := ih (count + 1) A' hnodup.2 hjs' (by dsimp only at hq ⊢; omega)
      refine ⟨hinv, by dsimp only at hle ⊢; omega, fun i' j' hne => ?_⟩
      rw [hother i' j' hne, entry_modEntry, if_neg fun e => hne e.1, entry_setSM2]

/-- Truncating division, as in C, of a number that may have wrapped to a smaller one. -/
theorem tdiv_le {x y c : Int} (hxy : x ≤ y) (hy : 0 ≤ y) (hc : 0 ≤ c) : max 0 (x.tdiv c) ≤ y / c := by
  refine max_le (Int.ediv_nonneg hy hc) ?_
  rcases Int.le_total 0 x with hx | hx
  · rw [Int.tdiv_eq_ediv_of_nonneg hx]
    rcases Int.le_iff_lt_or_eq.1 hc with hpos | rfl
    · exact Int.ediv_le_ediv hpos hxy
    · simp
  · have hneg : 0 ≤ (-x).tdiv c := Int.tdiv_nonneg (by omega) hc
    rw [Int.neg_tdiv] at hneg
    have := Int.ediv_nonneg hy hc
    omega

theorem sum_div_le (f c : Nat) (mi : Fin k → Nat) (is : List (Fin k)) :
    c * (is.map fun i => mi i * f / c).sum ≤ (is.map mi).sum * f := by
  induction is with
  | nil => simp
  | cons i is ih =>
    rw [List.map_cons, List.map_cons, List.sum_cons, List.sum_cons, Nat.mul_add, Nat.add_mul]
    exact Nat.add_le_add (Nat.mul_div_le _ _) ih

/-- The shares of all processes together are at most `f`. -/
theorem sum_pageFrames_le (f : Nat) (mi : Fin k → Nat) :
    ((List.finRange k).map fun i => max 0 (pageFrames f mi i)).sum ≤ f := by
  generalize hc : ((List.finRange k).map mi).sum = c
  have hle : ∀ i, max 0 (pageFrames f mi i) ≤ ((mi i * f / c : Nat) : Int) := by
    intro i
    have hprod : (0 : Int) ≤ mi i * f := Int.mul_nonneg (by omega) (by omega)
    rw [pageFrames, hc, Int.natCast_ediv, Int.natCast_mul]
    exact tdiv_le (int32_le hprod) hprod (by omega)
  have hsum : (((List.finRange k).map fun i => mi i * f / c).sum : Nat) ≤ f := by
    rcases Nat.eq_zero_or_pos c with rfl | hpos
    · simp
    · have := sum_div_le f c mi (List.finRange k)
      rw [hc] at this
      exact Nat.le_of_mul_le_mul_left this hpos
  calc ((List.finRange k).map fun i => max 0 (pageFrames f mi i)).sum
      ≤ ((List.finRange k).map fun i => ((mi i * f / c : Nat) : Int)).sum := List.sum_le_sum fun i _ => hle i
    _ = (((List.finRange k).map fun i => mi i * f / c).sum : Nat) := by
      rw [Nat.cast_list_sum, List.map_map]; rfl
    _ ≤ f := by exact_mod_cast hsum

/-- The outer loop, for processes that hold no frame yet and whose shares fit. -/
theorem foldl_allocPages_inv (is : List (Fin k)) (A : AllocInv f mi a) (hnodup : is.Nodup)
    (hno : ∀ i ∈ is, ∀ j, (a.1.entry i j).frame = -1)
    (hq : a.2 + (is.map fun i => max 0 (pageFrames f mi i)).sum ≤ f) :
    AllocInv f mi (is.foldl (fun a i => allocPages i (pageFrames f mi i) (List.range (mi i)) 0 a) a) := by
  induction is generalizing a with
  | nil => exact A
  | cons i is ih =>
    rw [List.nodup_cons] at hnodup
    rw [List.map_cons, List.sum_cons] at hq
    have hrest : 0 ≤ (is.map fun i => max 0 (pageFrames f mi i)).sum :=
      List.sum_nonneg fun x hx => by
        obtain ⟨i, -, rfl⟩ := List.mem_map.1 hx
        exact le_max_left _ _
    obtain ⟨A', hle, hother⟩ := allocPages_inv (i := i) (q := pageFrames f mi i) (List.range (mi i)) 0 A
      List.nodup_range (fun j hj => ⟨List.mem_range.1 hj, hno i (by simp) j⟩) (by omega)
    refine ih A' hnodup.2 (fun i' hi' j => ?_) (by dsimp only; omega)
    rw [hother i' j fun e => hnodup.1 (e ▸ hi')]
    exact hno i' (by simp [hi']) j

end Mmu

theorem MmuInv.init {k : Nat} (f : Nat) (mi : Fin k → Nat) : MmuInv f mi (Mmu.init f mi) := by
  have A : Mmu.AllocInv f mi (Mmu.build f mi, 0) :=
    ⟨.build f mi, le_rfl, fun g _ hg => if_pos hg⟩
  refine (Mmu.foldl_allocPages_inv (List.finRange k) A (List.nodup_finRange k) (fun _ _ _ => rfl) ?_).inv
  have := Mmu.sum_pageFrames_le f mi
  dsimp only
  omega

theorem MmuInv.of_reach {k f : Nat} {mi : Fin k → Nat} {s : Mmu k}
    (h : Trans.ReachIf (Mmu.step f) ValidRequest (Mmu.init f mi) s) : MmuInv f mi s :=
  h.inv (.init f mi) fun _ _ _ _ I _ hs => I.step hs

/-- **No frame is lost or shared**: after any requests the end marker stands, the free list marks
exactly the frames some page below its `m_i` holds, each of them held once, the valid bits say who
holds one, and the next search for a free frame and the next request come to an end. -/
theorem frame_ownership {k : Nat} (f : Nat) (mi : Fin k → Nat) (s : Mmu k)
    (h : Trans.ReachIf (Mmu.step f) ValidRequest (Mmu.init f mi) s) :
    s.SM2 f = -1 ∧
    (∀ g : Int, 0 ≤ g → g < f → s.SM2 g = 0 ∨ s.SM2 g = 1) ∧
    (∀ g : Int, 0 ≤ g → g < f → (s.SM2 g = 0 ↔ ∃ i j, j < (s.SM1 i).mi ∧ (s.entry i j).frame = g)) ∧
    (∀ g : Int, 0 ≤ g → g < f → s.SM2 g = 0 →
      ∃! a : Fin k × Nat, a.2 < (s.SM1 a.1).mi ∧ (s.entry a.1 a.2).frame = g) ∧
    (∀ i j, (s.entry i j).frame ≠ -1 → 0 ≤ (s.entry i j).frame ∧ (s.entry i j).frame < f) ∧
    (∀ i j, (s.entry i j).validBit = 1 ↔ (s.entry i j).frame ≠ -1) ∧
    (∀ i j, (s.SM1 i).mi ≤ j → (s.entry i j).frame = -1) ∧
    (∃ ind ≤ f, freeScan s.SM2 (f + 1) 0 = some ind) ∧
    (∀ r, ValidRequest s r → s.terminatedProcesses < k → ∃ s', s.step f r = some s') := by
  have I := MmuInv.of_reach h
  have hin : ∀ a : Fin k × Nat, s.own a ≠ -1 → a.2 < (s.SM1 a.1).mi := fun a ha => by
    rw [I.mi]; exact I.inside a.1 a.2 ha
  refine ⟨I.owns.endMark, I.owns.zeroOne, fun g h0 hg => ⟨fun hc => ?_, ?_⟩, fun g h0 hg hc => ?_, ?_, I.valid, ?_,
    ?_, ?_⟩
  · obtain ⟨a, ha⟩ := I.owns.owner g h0 hg hc
    exact ⟨a.1, a.2, hin a (by omega), ha⟩
  · rintro ⟨i, j, -, hframe⟩
    have := (I.owns.range (i, j) (by rw [Mmu.own, hframe]; omega)).2.2
    rwa [Mmu.own, hframe] at this
  · obtain ⟨a, ha, huniq⟩ := I.owns.exists_unique_owner h0 hg hc
    have hne : s.own a ≠ -1 := by omega
    exact ⟨a, ⟨hin a hne, ha⟩, fun b hb => huniq b hb.2⟩
  · intro i j hne
    obtain ⟨h0, hg, -⟩ := I.owns.range (i, j) hne
    exact ⟨h0, hg⟩
  · intro i j hj
    by_contra hne
    exact absurd (hin (i, j) hne) (Nat.not_lt.2 hj)
  · exact exists_freeScan (i := 0) I.owns.endMark (Nat.zero_le f)
  · intro r hr hk
    obtain ⟨x, hx⟩ := I.exists_handle hr
    exact ⟨x.1, by rw [Mmu.step, if_pos hk, hx]; rfl⟩

/-- Two processes and three frames: a fault with a free frame, a replacement and an exit. -/
theorem frame_ownership_three : ∃ s : Mmu 2,
    Trans.ReachIf (Mmu.step 3) ValidRequest (Mmu.init 3 fun _ => 2) s ∧ (s.entry 1 1).frame = 1 ∧
      s.SM2 1 = 0 ∧ s.SM2 0 = 1 ∧ s.SM2 3 = -1 := by
  obtain ⟨s, hr, hs⟩ := Trans.exists_reachIf_of_run (Mmu.step 3) ValidRequest (Mmu.init 3 fun _ => 2)
    [⟨0, 1⟩, ⟨1, 1⟩, ⟨0, -9⟩] (fun s : Mmu 2 => decide ((s.entry 1 1).frame = 1 ∧ s.SM2 0 = 1)) (by decide)
  obtain ⟨hframe, hfree⟩ := of_decide_eq_true hs
  obtain ⟨hend, -, hheld, -⟩ := frame_ownership 3 (fun _ => 2) s hr
  refine ⟨s, hr, hframe, (hheld 1 (by decide) (by decide)).2 ⟨1, 1, ?_, hframe⟩, hfree, hend⟩
  rw [(MmuInv.of_reach hr).mi]
  decide

end OsLab.A8
