import Mathlib.Data.List.FinRange
import Mathlib.Data.Fin.Basic
import OsLab.Lib.FreeList
import OsLab.Lib.Int32
import OsLab.Lib.Trans

/-!
# The MMU (A8/mmu.c) and the memory `master` sets up (A8/master.c)

| here | there |
| --- | --- |
| `PageEntry`, `PageTable` | `pt_t`, `pagetable_t` (mmu.c:22-37) without `pid` and `ref_str` |
| `Mmu.SM1`, `.SM2`        | the shared memory: the page tables and the free-frame list of `f + 1` cells |
| `Mmu.build`              | the loops of master.c:65-79 and :112-115 |
| `Mmu.allocPages`, `.init` | the initial frame allocation (master.c:169-191) |
| `Mmu.handle`             | one round of the loop of mmu.c:93-271: the new state and the messages in the order they are sent |
| `Mmu.step`               | the same behind the test of `terminated_processes` (mmu.c:79) |

`SM2` is indexed by `Int`, as the code indexes it with `PT[i].frame`; outside `0, ..., f` it is not
memory of the segment and `handle` is `none` where the code would read there. `count` and the product
`m_i*f` are 32-bit integers that wrap. The sum of the `m_i` does not: it is at most `k*m`, the number of
entries the segment has been made for. Nor do the counters of a process: it has at most `10*m_i`
references, makes at most two requests for each, and a request counts once at most. What the MMU prints
is left out.
-/

namespace OsLab.A8

open Function (update)

/-- `pt_t`. -/
structure PageEntry where
  page : Int
  frame : Int
  lruCtr : Int
  validBit : Int

/-- `pagetable_t`. -/
structure PageTable where
  mi : Nat
  PT : Nat → PageEntry
  totalPFs : Nat
  totalInvalidRefs : Nat

structure Mmu (k : Nat) where
  SM1 : Fin k → PageTable
  SM2 : Int → Int
  count : Int
  terminatedProcesses : Nat

/-- The fields of a type 1 message on `msqid3`. -/
structure Request (k : Nat) where
  pid : Fin k
  num : Int
deriving DecidableEq

/-- What the MMU sends. -/
inductive MmuMsg (k : Nat)
  /-- on `msqid2`, to the scheduler -/
  | sched (type : Nat) (pid : Fin k)
  /-- on `msqid3`, of type 2 -/
  | reply (num : Int) (pid : Fin k)
deriving DecidableEq

namespace Mmu

variable {k : Nat}

def entry (s : Mmu k) (i : Fin k) (j : Nat) : PageEntry := (s.SM1 i).PT j

/-- An assignment to fields of `SM1[i].PT[j]`. -/
def modEntry (s : Mmu k) (i : Fin k) (j : Nat) (g : PageEntry → PageEntry) : Mmu k :=
  { s with SM1 := update s.SM1 i { s.SM1 i with PT := update (s.SM1 i).PT j (g ((s.SM1 i).PT j)) } }

/-- An assignment to `SM2[g]`. -/
def setSM2 (s : Mmu k) (g v : Int) : Mmu k := { s with SM2 := update s.SM2 g v }

/-! ## The initial state -/

/-- The page tables and the free list before any frame is given (master.c:65-79, :112-115). -/
def build (f : Nat) (mi : Fin k → Nat) : Mmu k where
  SM1 i := ⟨mi i, fun j => ⟨j, -1, 0, 0⟩, 0, 0⟩
  SM2 g := if g < f then 1 else -1
  count := 0
  terminatedProcesses := 0

/-- The inner loop (master.c:180) over the pages `js`; the pair is the memory and `frame_num`. -/
def allocPages (i : Fin k) (pageFrames : Int) : List Nat → Int → Mmu k × Int → Mmu k × Int
  | [], _, a => a
  | j :: js, count, (s, frameNum) =>
    if pageFrames ≤ count then (s, frameNum)
    else
      allocPages i pageFrames js (count + 1)
        ((s.setSM2 frameNum 0).modEntry i j ({ · with frame := frameNum, validBit := 1 }), frameNum + 1)

/-- `page_frames=(SM1[i].m_i*f)/cumulative_m_i` (master.c:178). -/
def pageFrames (f : Nat) (mi : Fin k → Nat) (i : Fin k) : Int :=
  (int32 (mi i * f)).tdiv ((List.finRange k).map mi).sum

/-- The memory `master` hands to the MMU. -/
def init (f : Nat) (mi : Fin k → Nat) : Mmu k :=
  ((List.finRange k).foldl (fun a i => allocPages i (pageFrames f mi i) (List.range (mi i)) 0 a) (build f mi, 0)).1

/-! ## One request -/

/-- The body of the loop that releases the frames of a process (mmu.c:124-129, :153-158). -/
def releaseEntry (i : Fin k) (s : Mmu k) (j : Nat) : Mmu k :=
  if (s.entry i j).frame ≠ -1 then
    (s.setSM2 (s.entry i j).frame 1).modEntry i j ({ · with frame := -1, validBit := 0, lruCtr := 0 })
  else s

def release (s : Mmu k) (i : Fin k) : Mmu k := (List.range (s.SM1 i).mi).foldl (releaseEntry i) s

/-- The body of the loop that looks for the victim (mmu.c:245-249): `min_lru` and `victim_page`,
`none` for -1. -/
def victimStep (s : Mmu k) (i : Fin k) (v : Int × Option Nat) (j : Nat) : Int × Option Nat :=
  if (s.entry i j).frame = -1 then v
  else if (s.entry i j).lruCtr < v.1 then ((s.entry i j).lruCtr, some j)
  else v

def victimPage (s : Mmu k) (i : Fin k) : Option Nat :=
  ((List.range (s.SM1 i).mi).foldl (s.victimStep i) (intMax, none)).2

/-- Local page replacement (mmu.c:252-258). -/
def replace (s : Mmu k) (i : Fin k) (page victim : Nat) : Mmu k :=
  ((s.modEntry i page ({ · with frame := (s.entry i victim).frame })).modEntry i victim
    ({ · with frame := -1, validBit := 0 })).modEntry i page ({ · with validBit := 1, lruCtr := s.count })

/-- `PageFaultHandler` (mmu.c:220-260) when the search for a free frame has stopped at `ind`. -/
def loadPage (s : Mmu k) (i : Fin k) (page ind : Nat) : Mmu k :=
  if s.SM2 ind = 1 then
    (s.modEntry i page ({ · with frame := ind, validBit := 1, lruCtr := s.count })).setSM2 ind 0
  else
    match s.victimPage i with
    | some v => s.replace i page v
    | none => s

def addPF (s : Mmu k) (i : Fin k) : Mmu k :=
  { s with SM1 := update s.SM1 i { s.SM1 i with totalPFs := (s.SM1 i).totalPFs + 1 } }

def addInvalidRef (s : Mmu k) (i : Fin k) : Mmu k :=
  { s with SM1 := update s.SM1 i { s.SM1 i with totalInvalidRefs := (s.SM1 i).totalInvalidRefs + 1 } }

def terminate (s : Mmu k) : Mmu k := { s with terminatedProcesses := s.terminatedProcesses + 1 }

/-- The access to a page below `m_i` (mmu.c:182-269): a hit or a page fault. -/
def access (f : Nat) (s : Mmu k) (i : Fin k) (page : Nat) : Option (Mmu k × List (MmuMsg k)) :=
  if (s.entry i page).frame ≠ -1 then
    some (s.modEntry i page ({ · with lruCtr := s.count }), [.reply (s.entry i page).frame i])
  else
    (freeScan s.SM2 (f + 1) 0).map fun ind => ((s.addPF i).loadPage i page ind, [.reply (-1) i, .sched 1 i])

/-- One round of the loop (mmu.c:98-271). -/
def handle (f : Nat) (s : Mmu k) (r : Request k) : Option (Mmu k × List (MmuMsg k)) :=
  let s := { s with count := int32 (s.count + 1) }
  if r.num = -2 then some (s, [.sched 2 r.pid])
  else if r.num = -9 then some ((s.release r.pid).terminate, [.sched 2 r.pid])
  else if (s.SM1 r.pid).mi ≤ r.num then
    some (((s.release r.pid).addInvalidRef r.pid).terminate, [.sched 2 r.pid, .reply (-2) r.pid])
  else if r.num < 0 then none
  else s.access f r.pid r.num.toNat

/-- The loop takes a request as long as `terminated_processes < k`. -/
def step (f : Nat) (s : Mmu k) (r : Request k) : Option (Mmu k) :=
  if s.terminatedProcesses < k then (s.handle f r).map Prod.fst else none

/-! ## Small facts -/

@[simp] theorem entry_modEntry (s : Mmu k) (i i' : Fin k) (j j' : Nat) (g) :
    (s.modEntry i j g).entry i' j' = if i' = i ∧ j' = j then g (s.entry i j) else s.entry i' j' := by
  unfold modEntry entry
  by_cases hi : i' = i
  · subst hi
    by_cases hj : j' = j
    · subst hj; simp
    · simp [hj]
  · simp [hi]

/-- A change of other fields of a page table. -/
theorem entry_updateTable (s : Mmu k) (i i' : Fin k) (j : Nat) (t : PageTable) (ht : t.PT = (s.SM1 i).PT) :
    ({ s with SM1 := update s.SM1 i t }).entry i' j = s.entry i' j := by
  show (update s.SM1 i t i').PT j = (s.SM1 i').PT j
  by_cases hi : i' = i
  · rw [hi, Function.update_self, ht]
  · rw [Function.update_of_ne hi]

theorem mi_updateTable (s : Mmu k) (i i' : Fin k) (t : PageTable) (ht : t.mi = (s.SM1 i).mi) :
    (update s.SM1 i t i').mi = (s.SM1 i').mi := by
  by_cases hi : i' = i
  · rw [hi, Function.update_self, ht]
  · rw [Function.update_of_ne hi]

@[simp] theorem mi_modEntry (s : Mmu k) (i i' : Fin k) (j : Nat) (g) :
    ((s.modEntry i j g).SM1 i').mi = (s.SM1 i').mi := s.mi_updateTable i i' _ rfl

@[simp] theorem SM2_modEntry (s : Mmu k) (i : Fin k) (j : Nat) (g) : (s.modEntry i j g).SM2 = s.SM2 := rfl
@[simp] theorem entry_setSM2 (s : Mmu k) (g v : Int) (i : Fin k) (j : Nat) : (s.setSM2 g v).entry i j = s.entry i j := rfl
@[simp] theorem SM2_setSM2 (s : Mmu k) (g v : Int) : (s.setSM2 g v).SM2 = update s.SM2 g v := rfl

@[simp] theorem entry_addPF (s : Mmu k) (i i' : Fin k) (j : Nat) : (s.addPF i).entry i' j = s.entry i' j :=
  s.entry_updateTable i i' j _ rfl

@[simp] theorem mi_addPF (s : Mmu k) (i i' : Fin k) : ((s.addPF i).SM1 i').mi = (s.SM1 i').mi :=
  s.mi_updateTable i i' _ rfl

@[simp] theorem entry_addInvalidRef (s : Mmu k) (i i' : Fin k) (j : Nat) :
    (s.addInvalidRef i).entry i' j = s.entry i' j :=
  s.entry_updateTable i i' j _ rfl

@[simp] theorem mi_addInvalidRef (s : Mmu k) (i i' : Fin k) : ((s.addInvalidRef i).SM1 i').mi = (s.SM1 i').mi :=
  s.mi_updateTable i i' _ rfl

/-! ## What a request does -/

/-- `count++` (mmu.c:98). -/
def tick (s : Mmu k) : Mmu k := { s with count := int32 (s.count + 1) }

@[simp] theorem entry_tick (s : Mmu k) (i : Fin k) (j : Nat) : s.tick.entry i j = s.entry i j := rfl
@[simp] theorem SM2_tick (s : Mmu k) : s.tick.SM2 = s.SM2 := rfl
@[simp] theorem mi_tick (s : Mmu k) (i : Fin k) : (s.tick.SM1 i).mi = (s.SM1 i).mi := rfl
@[simp] theorem entry_terminate (s : Mmu k) (i : Fin k) (j : Nat) : s.terminate.entry i j = s.entry i j := rfl

inductive Handled (f : Nat) (s : Mmu k) (r : Request k) : Mmu k → List (MmuMsg k) → Prop
  | idle : r.num = -2 → Handled f s r s.tick [.sched 2 r.pid]
  | exit : r.num = -9 → Handled f s r (s.tick.release r.pid).terminate [.sched 2 r.pid]
  | illegal : 0 ≤ r.num → (s.SM1 r.pid).mi ≤ r.num →
      Handled f s r ((s.tick.release r.pid).addInvalidRef r.pid).terminate [.sched 2 r.pid, .reply (-2) r.pid]
  | hit (page : Nat) : r.num = page → page < (s.SM1 r.pid).mi → (s.entry r.pid page).frame ≠ -1 →
      Handled f s r (s.tick.modEntry r.pid page ({ · with lruCtr := s.tick.count }))
        [.reply (s.entry r.pid page).frame r.pid]
  | fault (page ind : Nat) : r.num = page → page < (s.SM1 r.pid).mi → (s.entry r.pid page).frame = -1 →
      freeScan s.SM2 (f + 1) 0 = some ind →
      Handled f s r ((s.tick.addPF r.pid).loadPage r.pid page ind) [.reply (-1) r.pid, .sched 1 r.pid]

theorem handled_of_handle {f : Nat} {s s' : Mmu k} {r : Request k} {ms : List (MmuMsg k)}
    (h : s.handle f r = some (s', ms)) : Handled f s r s' ms := by
  dsimp only [handle] at h
  split at h
  · next hnum => cases h; exact .idle hnum
  split at h
  · next hnum => cases h; exact .exit hnum
  split at h
  · next hmi => cases h; exact .illegal (by omega) hmi
  split at h
  · cases h
  · next hmi hneg =>
    have hnum : r.num = (r.num.toNat : Int) := by omega
    have hlt : r.num.toNat < (s.SM1 r.pid).mi := by omega
    unfold access at h
    split at h
    · next hframe => cases h; exact .hit _ hnum hlt hframe
    · next hframe =>
      obtain ⟨ind, hscan, h⟩ := Option.map_eq_some_iff.1 h
      cases h
      exact .fault _ ind hnum hlt (not_ne_iff.1 hframe) hscan

end Mmu

end OsLab.A8
