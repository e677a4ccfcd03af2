import OsLab.A8.Alloc
import OsLab.A8.Local
import OsLab.A8.Turns

/-!
# A run comes to its end (A8/process.c, A8/sched.c, A8/mmu.c)

| here | there |
| --- | --- |
| `Paging.stepsLeft`  | bounds the steps still to come: a reference costs at most 20 |
| `Course`            | what holds in every state of a run |
| `Finished`          | everybody has returned from `main` or left the loop (sched.c:83, mmu.c:79) |

A process that has a frame gets every page it asks for, if only in exchange for its own. So each page is requested at most
twice, nothing goes round for ever, and a state nobody can leave is one in which everybody is through. A process without
a frame faults until another one has ended, which is not bounded here.
-/

namespace OsLab.A8

open Function (update)

variable {k f : Nat} {mi : Fin k → Nat} {i j : Fin k}

/-! ## The steps to come -/

/-- The requests for the references process `i` has left: two for each page that has to be loaded first. -/
def Mmu.debt (s : Mmu k) (i : Fin k) : List Nat → Nat
  | [] => 0
  | page :: rest => 2 * rest.length + if (s.entry i page).frame = -1 then 2 else 1

def View.weight (v : View k) : Nat :=
  (match v.pc with | .register => 10 | .send => 6 | _ => 0) +
    (v.mail.map fun m => if m.type = 1 then 5 else 1).sum + 7 * v.sem

def cost (q : List (Msg2 k)) : Nat := (q.map fun m => if m.type = 1 then 11 else 1).sum

def Paging.stepsLeft (s : Paging k) : Nat :=
  ∑ i, ((s.view i).weight + 10 * s.mmu.debt i (s.view i).refs) + 8 * (queued s).length + cost s.pending + s.lag

theorem Mmu.debt_le (s : Mmu k) (i : Fin k) (refs : List Nat) : s.debt i refs ≤ 2 * refs.length := by
  cases refs with
  | nil => exact Nat.zero_le _
  | cons page rest =>
    rw [debt, List.length_cons]
    split <;> omega

theorem Mmu.debt_congr {s s' : Mmu k} (h : s'.SM1 i = s.SM1 i) (refs : List Nat) : s'.debt i refs = s.debt i refs := by
  cases refs with
  | nil => rfl
  | cons page rest => rw [debt, debt, entry, entry, h]

theorem cost_append (q q' : List (Msg2 k)) : cost (q ++ q') = cost q + cost q' := by
  simp [cost]

section
variable {m : Nat} {v v' : View k} {s mem : Mmu k} {out : List (MmuMsg k)}

theorem Turn.weight (h : Turn i m v v') (s : Mmu k) :
    v'.weight + 10 * s.debt i v'.refs < v.weight + 10 * s.debt i v.refs := by
  cases h with
  | dispatched pc n refs hpc =>
    rcases hpc with rfl | rfl <;> simp only [View.weight, List.map_nil, List.sum_nil] <;> omega
  | granted fr page n rest =>
    have hdebt := s.debt_le i rest
    have hmore : 2 * rest.length + 1 ≤ s.debt i (page :: rest) := by
      rw [Mmu.debt]
      split <;> omega
    simp [View.weight]
    omega
  | request | finish | faulted | refused => simp [View.weight]

/-- The request is the mail of the process. -/
theorem Answer.request (h : Answer f i m s v v' mem out) :
    ∃ num, v.mail = [⟨1, num, i⟩] ∧ s.Handled f ⟨i, num⟩ mem out := by
  cases h with
  | hit page _ _ _ _ _ _ hH | fault page _ _ _ _ _ hH | refuse page _ _ _ _ hH => exact ⟨page, rfl, hH⟩
  | exit _ _ hH => exact ⟨-9, rfl, hH⟩

/-- Process `i` has a frame to give up. -/
def Mmu.Feeds (s : Mmu k) (i : Fin k) : Prop := ∃ q, (s.entry i q).frame ≠ -1 ∧ (s.entry i q).lruCtr < intMax

/-- A page is there after a request for it. -/
theorem Mmu.Handled.frame_page {page : Nat} (h : s.Handled f ⟨i, page⟩ mem out) (I : MmuInv f mi s) (hlt : page < mi i)
    (hfed : s.Feeds i) : (mem.entry i page).frame ≠ -1 := by
  by_cases hframe : (s.entry i page).frame = -1
  · exact (Mmu.frame_fault I h hlt hframe).2 (.inr hfed)
  · have hmi := I.mi i
    cases h with
    | idle hnum | exit hnum => simp only at hnum; omega
    | illegal h0 hle => simp only at hle; omega
    | hit page' hnum =>
      rw [Mmu.entry_modEntry]
      split
      · next heq => rwa [← heq.2]
      · exact hframe
    | fault page' ind hnum _ hno =>
      obtain rfl : page = page' := by simpa using hnum
      exact absurd hno hframe

theorem Answer.weight (h : Answer f i (mi i) s v v' mem out) (I : MmuInv f mi s) (I' : MmuInv f mi mem)
    (hfed : s.Feeds i) : v'.weight + 10 * mem.debt i v'.refs + cost (out.filterMap toMsg2) + out.length <
      v.weight + 10 * s.debt i v.refs := by
  cases h with
  | hit page n rest mem hlt hframe h0 hH =>
    have hres := hH.frame_page I hlt hfed
    simp [View.weight, Mmu.debt, hframe, hres, toMsg2, cost, List.filterMap_cons]
    omega
  | fault page n rest mem hlt hframe hH =>
    have hres := hH.frame_page I hlt hfed
    simp [View.weight, Mmu.debt, hframe, hres, toMsg2, cost, List.filterMap_cons]
    omega
  | refuse page n rest mem hle hH =>
    have hno : ∀ {t : Mmu k}, MmuInv f mi t → (t.entry i page).frame = -1 := fun It => by
      by_contra hframe
      have := It.inside i page hframe
      omega
    simp [View.weight, Mmu.debt, hno I, hno I', toMsg2, cost, List.filterMap_cons]
    omega
  | exit n mem hH =>
    simp [View.weight, Mmu.debt, toMsg2, cost]
    omega

end

namespace Effect

variable {s s' : Paging k}

/-- The sum over all processes when only the view of `i` changes, and of the memory only what is its own. -/
theorem sum_weight {v : View k} (hview : s'.view = update s.view i v)
    (hmmu : ∀ j, j ≠ i → s'.mmu.SM1 j = s.mmu.SM1 j) :
    ∑ j, ((s'.view j).weight + 10 * s'.mmu.debt j (s'.view j).refs) +
        ((s.view i).weight + 10 * s.mmu.debt i (s.view i).refs) =
      ∑ j, ((s.view j).weight + 10 * s.mmu.debt j (s.view j).refs) + (v.weight + 10 * s'.mmu.debt i v.refs) := by
  have hother : ∀ j, j ≠ i → (s'.view j).weight + 10 * s'.mmu.debt j (s'.view j).refs =
      (s.view j).weight + 10 * s.mmu.debt j (s.view j).refs := by
    intro j hj
    rw [hview, Function.update_of_ne hj, Mmu.debt_congr (hmmu j hj)]
  have hself : s'.view i = v := by rw [hview, Function.update_self]
  have hsum := Tally.sum_of_eq_elsewhere hother
  rwa [hself] at hsum

/-- **Each step takes something away** from what is still to come, if nobody is without a frame. -/
theorem stepsLeft_lt (E : Effect f mi s s') (I : MmuInv f mi s.mmu) (I' : MmuInv f mi s'.mmu)
    (hfed : ∀ i num, (s.view i).mail = [⟨1, num, i⟩] → s.mmu.Feeds i) :
    s'.stepsLeft < s.stepsLeft := by
  unfold Paging.stepsLeft
  cases E with
  | hand hview hqueued hpending _ hmmu hlag =>
    rw [hview, hpending, hmmu, hqueued.length_eq]
    omega
  | proc i v hturn hview hqueued hpending _ hmmu hlag =>
    have hweight := hturn.weight s.mmu
    have hsum := sum_weight hview fun j _ => by rw [hmmu]
    rw [hpending, hqueued.length_eq]
    rw [hmmu] at hsum ⊢
    omega
  | register i n refs hidle hview hqueued hpending _ hmmu hlag =>
    have hlen := hqueued.length_eq
    have hsum := sum_weight hview fun j _ => by rw [hmmu]
    rw [hidle] at hsum
    rw [hpending]
    rw [hmmu] at hsum ⊢
    simp only [View.weight, List.length_cons] at hsum hlen ⊢
    omega
  | signal i hview hqueued hpending _ hmmu hlag =>
    have hlen := hqueued.length_eq
    have hsum := sum_weight hview fun j _ => by rw [hmmu]
    rw [hpending]
    rw [hmmu] at hsum ⊢
    simp only [View.weight, List.length_cons] at hsum hlen ⊢
    omega
  | read m hview hqueued hpending _ hmmu hlag =>
    have hlen := hqueued.length_eq
    rw [hview, hmmu, hpending]
    have hcost : cost (m :: s'.pending) = (if m.type = 1 then 11 else 1) + cost s'.pending := rfl
    rw [hcost]
    split at hlen
    · next hm =>
      rw [if_pos hm] at hlag ⊢
      rw [List.length_cons] at hlen
      omega
    · next hm =>
      rw [if_neg hm] at hlag ⊢
      omega
  | answer i v out hanswer hview hqueued hpending _ hlag =>
    obtain ⟨num, hmail, hH⟩ := hanswer.request
    have hweight := hanswer.weight I I' (hfed i num hmail)
    have hsum := sum_weight hview fun j hj => hH.SM1_other hj
    rw [hpending, cost_append, hqueued.length_eq]
    omega

/-- Only legal pages are taken off a reference string. -/
theorem refs_dropWhile (E : Effect f mi s s') (j : Fin k) :
    (s'.view j).refs.dropWhile (· < mi j) = (s.view j).refs.dropWhile (· < mi j) := by
  have hupdate : ∀ (i : Fin k) (v : View k), v.refs.dropWhile (· < mi i) = (s.view i).refs.dropWhile (· < mi i) →
      (update s.view i v j).refs.dropWhile (· < mi j) = (s.view j).refs.dropWhile (· < mi j) := by
    intro i v hv
    by_cases hj : j = i
    · rw [hj, Function.update_self, hv]
    · rw [Function.update_of_ne hj]
  cases E with
  | hand hview | read _ hview => rw [hview]
  | proc i v hturn hview =>
    rw [hview]
    refine hupdate i v ?_
    generalize s.view i = w at hturn
    cases hturn with
    | granted fr page n rest h0 hlt => simp [hlt]
    | dispatched | request | finish | faulted | refused => rfl
  | register i n refs hidle hview =>
    rw [hview]
    exact hupdate i _ (by rw [hidle])
  | signal i hview =>
    rw [hview]
    exact hupdate i _ rfl
  | answer i v out hanswer hview =>
    rw [hview]
    refine hupdate i v ?_
    generalize s.view i = w at hanswer
    cases hanswer <;> rfl

/-- The MMU's memory stays, or it has answered a request. -/
theorem mmu_eq (E : Effect f mi s s') :
    s'.mmu = s.mmu ∨ ∃ i out, Answer f i (mi i) s.mmu (s.view i) (s'.view i) s'.mmu out := by
  cases E with
  | answer i v out hanswer hview =>
    refine .inr ⟨i, out, ?_⟩
    rw [hview, Function.update_self]
    exact hanswer
  | hand | proc | register | signal | read => exact .inl (by assumption)

end Effect

theorem Paging.weight_le_stepsLeft (s : Paging k) (i : Fin k) : (s.view i).weight ≤ s.stepsLeft := by
  have hle := Finset.single_le_sum (f := fun i => (s.view i).weight + 10 * s.mmu.debt i (s.view i).refs)
    (fun _ _ => Nat.zero_le _) (Finset.mem_univ i)
  unfold stepsLeft
  omega

/-! ## The invariant -/

structure Course (f : Nat) (mi : Fin k → Nat) (refs : Fin k → List Nat) (bound : Nat) (x : Account k) : Prop where
  accounts : Accounts f mi x
  shape : ∀ i, Shape i (mi i) (x.sys.view i)
  turns : Turns x.sys
  tally : x.sys.terminated = x.counted.length
  done : x.sys.sched = .done ↔ k ≤ x.sys.terminated
  left : ∀ i, (x.sys.view i).refs.dropWhile (· < mi i) = (refs i).dropWhile (· < mi i)
  fed : ∀ i, i ∉ x.terminated → ∃ p, (x.sys.mmu.entry i p).frame ≠ -1
  recent : ∃ past, Recency past x.sys.mmu ∧ past.length + x.sys.stepsLeft ≤ bound

theorem Paging.ProcMove.sched {s s' : Paging k} (h : s.ProcMove i s') :
    s'.sched = s.sched ∧ s'.terminated = s.terminated := by
  cases h with
  | receive m q =>
    unfold onReply
    split
    · exact ⟨rfl, rfl⟩
    · split <;> exact ⟨rfl, rfl⟩
  | register | dispatched | request | finish => exact ⟨rfl, rfl⟩

theorem Paging.MmuMove.sched {s s' : Paging k} (h : s.MmuMove f s') :
    s'.sched = s.sched ∧ s'.terminated = s.terminated := by
  cases h with
  | send m => cases m <;> exact ⟨rfl, rfl⟩
  | receive => exact ⟨rfl, rfl⟩

namespace Course

variable {refs : Fin k → List Nat} {bound : Nat} {x x' : Account k}

/-- The scheduler leaves its loop with the message that makes it `k`. -/
theorem tally_step {s' : Paging k} (C : Course f mi refs bound x) {a : Actor k} (h : x.sys.step f a = some s') :
    s'.terminated = (x.counted ++ counts x.sys a).length ∧ (s'.sched = .done ↔ k ≤ s'.terminated) := by
  have htally := C.tally
  have hdone := C.done
  cases a with
  | proc i =>
    obtain ⟨hsched, hterminated⟩ := (Paging.procMove_of_step h).sched
    rw [hsched, hterminated]
    exact ⟨by simp [counts, htally], hdone⟩
  | mmu =>
    obtain ⟨hsched, hterminated⟩ := (Paging.mmuMove_of_step h).sched
    rw [hsched, hterminated]
    exact ⟨by simp [counts, htally], hdone⟩
  | sched =>
    have hloop : ∀ s : Paging k, s.loopSched.sched = .done ↔ k ≤ s.loopSched.terminated := by
      intro s
      simp [Paging.loopSched]
    cases Paging.schedMove_of_step h with
    | take pid rest hs | signal pid hs => exact ⟨by simp [counts, hs, htally], by simpa [hs] using hdone⟩
    | fault pid rest hs hq => exact ⟨by simp [counts, hs, hq, htally], by simpa [hs] using hdone⟩
    | terminated pid rest hs hq => exact ⟨by simp [Paging.loopSched, counts, hs, hq, htally], hloop _⟩
    | other m rest hs hq h1 h2 => exact ⟨by simp [Paging.loopSched, counts, hs, hq, h2, htally], hloop _⟩
    | resend pid hs => exact ⟨by simp [Paging.loopSched, counts, hs, htally], hloop _⟩

/-- There is time left for the request that is under way. -/
theorem length_lt (C : Course f mi refs bound x) {num : Int} (hmail : (x.sys.view i).mail = [⟨1, num, i⟩]) :
    ∃ past, Recency past x.sys.mmu ∧ past.length + x.sys.stepsLeft ≤ bound ∧ past.length + 1 ≤ bound := by
  obtain ⟨past, R, hle⟩ := C.recent
  have hweight : 5 ≤ (x.sys.view i).weight := by
    rw [View.weight, hmail]
    simp
    omega
  have := x.sys.weight_le_stepsLeft i
  exact ⟨past, R, hle, by omega⟩

/-- A process that asks for a page has a frame. -/
theorem feeds (C : Course f mi refs bound x) (hbound : (bound : Int) ≤ intMax) {num : Int}
    (hmail : (x.sys.view i).mail = [⟨1, num, i⟩]) : x.sys.mmu.Feeds i := by
  have hlive : i ∉ x.terminated := by
    have S := C.accounts.stage i
    have hmail' : mail x.sys.msq3 x.sys.outbox i = [⟨1, num, i⟩] := hmail
    rw [hmail'] at S
    exact (S.request rfl).1
  obtain ⟨past, R, -, hlt⟩ := C.length_lt hmail
  obtain ⟨q, hq⟩ := C.fed i hlive
  refine ⟨q, hq, ?_⟩
  have hle := lastUse_le past i (p := q)
  rw [R.lruCtr i q hq]
  omega

/-- Whoever is not terminated keeps a frame. -/
theorem fed_step (C : Course f mi refs bound x) (hbound : (bound : Int) ≤ intMax) (A' : Accounts f mi x')
    (E : Effect f mi x.sys x'.sys) (hsub : ∀ i ∈ x.terminated, i ∈ x'.terminated) (i : Fin k) (hi : i ∉ x'.terminated) :
    ∃ p, (x'.sys.mmu.entry i p).frame ≠ -1 := by
  have hlive : i ∉ x.terminated := fun h => hi (hsub i h)
  obtain ⟨p, hp⟩ := C.fed i hlive
  rcases E.mmu_eq with hmmu | ⟨j, out, hanswer⟩
  · exact ⟨p, by rwa [hmmu]⟩
  obtain ⟨num, hmail, hH⟩ := hanswer.request
  by_cases hij : i = j
  · subst hij
    have hfed := C.feeds hbound hmail
    have hstage : Stage i (i ∈ x'.terminated) (x'.sys.view i).pc (x'.sys.view i).mail := A'.stage i
    generalize x'.sys.view i = v' at hanswer hstage
    generalize x.sys.view i = v at hanswer
    generalize hmem : x'.sys.mmu = mem at hanswer
    cases hanswer with
    | hit page n rest mem hlt _ _ hH' => exact ⟨page, hH'.frame_page C.accounts.mem hlt hfed⟩
    | fault page n rest mem hlt _ hH' => exact ⟨page, hH'.frame_page C.accounts.mem hlt hfed⟩
    | refuse page n rest mem hle =>
      rcases hstage with ⟨_, hmail', -⟩ | ⟨num', hmail', hdead⟩
      · cases hmail'
      · cases hmail'
        exact absurd (hdead.1 rfl) hi
    | exit n mem =>
      rcases hstage with ⟨hmail', -⟩ | ⟨-, hdead⟩
      · cases hmail'
      · exact absurd hdead hi
  · refine ⟨p, ?_⟩
    rw [Mmu.entry, hH.SM1_other hij]
    exact hp

theorem step (C : Course f mi refs bound x) (hbound : (bound : Int) ≤ intMax) {a : Actor k} (hown : OwnReply x a)
    (h : x.step f a = some x') : Course f mi refs bound x' ∧ x'.sys.stepsLeft < x.sys.stepsLeft := by
  have A' := C.accounts.step hown h
  obtain ⟨s', hs', rfl⟩ := Option.map_eq_some_iff.1 h
  have E := C.accounts.effect C.shape hown hs'
  have hless : s'.stepsLeft < x.sys.stepsLeft :=
    E.stepsLeft_lt C.accounts.mem A'.mem fun i num hmail => C.feeds hbound hmail
  obtain ⟨htally, hdone⟩ := C.tally_step hs'
  have hleft := fun i => (E.refs_dropWhile i).trans (C.left i)
  refine ⟨⟨A', E.shape C.shape, E.turns C.turns, htally, hdone, hleft, ?_, ?_⟩, hless⟩
  · exact C.fed_step hbound A' E fun i hi => List.mem_append_left _ hi
  · rcases E.mmu_eq with hmmu | ⟨j, out, hanswer⟩
    · obtain ⟨past, R, hle⟩ := C.recent
      refine ⟨past, ?_, ?_⟩
      · show Recency past s'.mmu
        rwa [hmmu]
      · show past.length + s'.stepsLeft ≤ bound
        omega
    · obtain ⟨num, hmail, hH⟩ := hanswer.request
      obtain ⟨past, R, hle, hlt⟩ := C.length_lt hmail
      refine ⟨past ++ [⟨j, num⟩], R.handled C.accounts.mem (by omega) hH, ?_⟩
      rw [List.length_append, List.length_singleton]
      show past.length + 1 + s'.stepsLeft ≤ bound
      omega

theorem init (hk : 0 < k) (hint : ∀ i, (mi i * f : Nat) ≤ intMax) (hshare : ∀ i, 1 ≤ Mmu.share f mi i)
    (refs : Fin k → List Nat) : Course f mi refs (Paging.init f mi refs).stepsLeft (Account.init f mi refs) where
  accounts := .init f mi refs
  shape i := .idle _ _ _ (.inl rfl)
  turns := .init f mi refs
  tally := rfl
  done := by
    simp only [Account.init, Paging.init, reduceCtorEq, false_iff]
    omega
  left _ := rfl
  fed i _ := ⟨0, (Mmu.resident_init hint i 0).2 (hshare i)⟩
  recent := ⟨[], .init f mi, by simp [Account.init]⟩

end Course

/-! ## A state nobody can leave -/

theorem exists_recv {t : Nat} {q : List (Msg3 k)} {m : Msg3 k} (hm : m ∈ q) (ht : m.type = t) :
    ∃ m' rest, recv t q = some (m', rest) := by
  cases hfind : q.find? (·.type = t) with
  | none => exact absurd ht (by simpa using List.find?_eq_none.1 hfind m hm)
  | some m' => exact ⟨m', _, by rw [recv, hfind, Option.map_some]⟩

namespace Course

variable {refs : Fin k → List Nat} {bound : Nat} {x : Account k}

section
variable (C : Course f mi refs bound x) (hstuck : ∀ a, Trans.guarded (Account.step f) OwnReply x a = none)
include hstuck

theorem blocked {a : Actor k} (hown : OwnReply x a) : x.sys.step f a = none := by
  have h := hstuck a
  rw [Trans.guarded, if_pos hown, Account.step, Option.map_eq_none_iff] at h
  exact h

theorem outbox_nil : x.sys.outbox = [] := by
  have hmmu : x.sys.stepMmu f = none := blocked hstuck (a := .mmu) trivial
  unfold Paging.stepMmu at hmmu
  split at hmmu
  · cases hmmu
  · assumption

theorem mem_msq3 {m : Msg3 k} (hm : m ∈ (x.sys.view i).mail) : m ∈ x.sys.msq3 ∧ m.pid = i := by
  have hmail := List.mem_filter.1 hm
  rw [outbox_nil hstuck] at hmail
  simpa using hmail

include C

/-- The MMU would take a request. -/
theorem no_request (num : Int) : (x.sys.view i).mail ≠ [⟨1, num, i⟩] := by
  intro hmail
  have hlive : i ∉ x.terminated := by
    have S := C.accounts.stage i
    have hmail' : mail x.sys.msq3 x.sys.outbox i = [⟨1, num, i⟩] := hmail
    rw [hmail'] at S
    exact (S.request rfl).1
  have hmem : (⟨1, num, i⟩ : Msg3 k) ∈ (x.sys.view i).mail := by simp [hmail]
  obtain ⟨m, q, hrecv⟩ : ∃ m q, recv 1 x.sys.msq3 = some (m, q) := exists_recv (mem_msq3 hstuck hmem).1 rfl
  obtain ⟨⟨-, hreq⟩, -⟩ := C.accounts.request hrecv
  have hvalid : ValidRequest x.sys.mmu ⟨m.pid, m.num⟩ := by
    unfold ValidRequest
    rcases hreq with ⟨-, page, hpage⟩ | ⟨-, hexit⟩ <;> simp only <;> omega
  obtain ⟨y, hy⟩ := C.accounts.mem.exists_handle hvalid
  have hlt : x.sys.mmu.terminatedProcesses < k := by
    by_contra hge
    exact hlive (C.accounts.all_terminated (by omega) i)
  have hmmu : x.sys.stepMmu f = none := blocked hstuck (a := .mmu) trivial
  simp [Paging.stepMmu, outbox_nil hstuck, hlt, hrecv, hy] at hmmu

/-- The process whose reply is the first one would take it. -/
theorem no_reply (num : Int) : (x.sys.view i).mail ≠ [⟨2, num, i⟩] := by
  intro hmail
  have hmem : (⟨2, num, i⟩ : Msg3 k) ∈ (x.sys.view i).mail := by simp [hmail]
  obtain ⟨m, q, hrecv⟩ : ∃ m q, recv 2 x.sys.msq3 = some (m, q) := exists_recv (mem_msq3 hstuck hmem).1 rfl
  have hown : OwnReply x (.proc m.pid) := by
    intro _ m' hm'
    rw [hrecv, Option.map_some, Option.mem_some_iff] at hm'
    rw [← hm']
  have hpc : x.sys.pc m.pid = .reply := by
    have hm : m ∈ (x.sys.view m.pid).mail :=
      List.mem_filter.2 ⟨List.mem_append_left _ (recv_mem hrecv).1, by simp⟩
    have htype := (recv_mem hrecv).2.1
    have hS := C.shape m.pid
    show (x.sys.view m.pid).pc = .reply
    generalize x.sys.view m.pid = v at hS hm
    cases hS with
    | idle | exited => cases hm
    | asked | granted | faulted | refused => rfl
    | exiting =>
      rw [List.mem_singleton.1 hm] at htype
      cases htype
  have hproc : x.sys.stepProc m.pid = none := blocked hstuck (a := .proc m.pid) hown
  simp [Paging.stepProc, hpc, hrecv] at hproc

/-- Everybody is gone or waits to be signalled. -/
theorem at_rest (i : Fin k) : (x.sys.view i).mail = [] ∧ (x.sys.view i).sem = 0 ∧
    ((x.sys.view i).pc = .exited ∨ (x.sys.view i).asleep = 1) := by
  have hrequest := C.no_request hstuck (i := i)
  have hreply := C.no_reply hstuck (i := i)
  have hcalls := C.turns.calls i
  have hpc : (x.sys.view i).pc = x.sys.pc i := rfl
  have hsem : (x.sys.view i).sem = x.sys.sem i := rfl
  have hproc : x.sys.pc i ≠ .reply → x.sys.stepProc i = none := fun hne =>
    blocked hstuck (a := .proc i) fun h => absurd h hne
  have hS := C.shape i
  generalize x.sys.view i = v at *
  cases hS with
  | idle pc n refs hidle =>
    simp only at hpc hsem
    rw [← hpc] at hproc
    rcases hidle with rfl | rfl | rfl | rfl
    · simp [Paging.stepProc, ← hpc] at hproc
    · refine ⟨rfl, ?_, .inr rfl⟩
      by_contra hne
      simp only [Paging.stepProc, ← hpc, ← hsem, if_pos (Nat.pos_of_ne_zero hne)] at hproc
      simp at hproc
    · refine ⟨rfl, ?_, .inr rfl⟩
      by_contra hne
      simp only [Paging.stepProc, ← hpc, ← hsem, if_pos (Nat.pos_of_ne_zero hne)] at hproc
      simp at hproc
    · simp only [Paging.stepProc, ← hpc] at hproc
      cases hrefs : x.sys.refs i <;> simp [hrefs] at hproc
  | asked page => exact absurd rfl (hrequest page)
  | granted fr => exact absurd rfl (hreply fr)
  | faulted => exact absurd rfl (hreply (-1))
  | refused => exact absurd rfl (hreply (-2))
  | exiting => exact absurd rfl (hrequest (-9))
  | exited n refs =>
    refine ⟨rfl, ?_, .inl rfl⟩
    simp only [View.asleep] at hcalls ⊢
    omega

/-- No message to the scheduler is under way, and the scheduler does not wait for one. -/
theorem pending_nil : x.sys.pending = [] ∧ x.sys.sched ≠ .wait := by
  have hbusy := C.turns.busy
  have hzero : ∑ i, (x.sys.view i).busy = 0 := by
    refine Finset.sum_eq_zero fun i _ => ?_
    obtain ⟨hmail, hsem, hpc⟩ := C.at_rest hstuck i
    rcases hpc with hpc | hpc
    · simp [View.busy, hmail, hsem, hpc]
    · unfold View.asleep at hpc
      unfold View.busy
      rw [hmail] at hpc ⊢
      split at hpc <;> simp_all
  by_cases hwait : x.sys.sched = .wait
  · rw [hzero, if_pos hwait] at hbusy
    have hsched : x.sys.stepSched = none := blocked hstuck (a := .sched) trivial
    have hmsq2 : x.sys.pending = x.sys.msq2 := by
      rw [Paging.pending, outbox_nil hstuck]
      simp
    rw [hmsq2] at hbusy
    cases hq : x.sys.msq2 with
    | nil => simp [hq] at hbusy
    | cons m rest =>
      simp only [Paging.stepSched, hwait, hq] at hsched
      split at hsched
      · cases hsched
      · split at hsched <;> cases hsched
  · rw [hzero, if_neg hwait, Nat.zero_add] at hbusy
    exact ⟨List.eq_nil_of_length_eq_zero hbusy, hwait⟩

end

end Course

end OsLab.A8
