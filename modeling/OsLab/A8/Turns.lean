import OsLab.A8.Accounting
import OsLab.Lib.Tally

/-!
# Turns at the processor (A8/process.c, A8/sched.c, A8/mmu.c)

| here | there |
| --- | --- |
| `View`            | what a process shows: where it is, its mail, its semaphore and the references it has left |
| `Shape`           | the views there are |
| `queued`          | `msqid1` and the pid the scheduler holds between two of its statements |
| `Paging.pending`  | what the scheduler has yet to read: `msqid2` and what the MMU still has to send on it |
| `Effect`          | what a step changes of these, whichever queue its message is on |

A process that is to be woken is called exactly once: its pid is queued, or its semaphore is up, or the MMU's message
about it is pending. And while the scheduler waits (sched.c:68), exactly one thing is under way that will end in a message
to it: this is `Turns`.
-/

namespace OsLab.A8

open Function (update)

variable {k f : Nat} {mi : Fin k → Nat} {i j : Fin k}

structure View (k : Nat) where
  pc : ProcPc
  mail : List (Msg3 k)
  sem : Nat
  refs : List Nat

/-- The processes the scheduler is to put back into the queue. -/
def recalls (q : List (Msg2 k)) : List (Fin k) := (q.filter fun m => m.type = 1).map Msg2.pid

namespace View

/-- It is blocked until the scheduler signals it, or will be when it has read its mail. -/
def asleep (v : View k) : Nat :=
  match v.pc, v.mail with
  | .start, _ | .load, _ => 1
  | .reply, m :: _ => if m.type = 2 ∧ m.num = -1 then 1 else 0
  | _, _ => 0

/-- It has been signalled, and the MMU has not told the scheduler about it yet. -/
def busy (v : View k) : Nat :=
  v.sem + match v.pc, v.mail with
    | .send, _ => 1
    | .reply, m :: _ => if m.type = 1 ∨ 0 ≤ m.num then 1 else 0
    | .exited, _ :: _ => 1
    | _, _ => 0

end View

namespace Paging

def view (s : Paging k) (i : Fin k) : View k := ⟨s.pc i, mail s.msq3 s.outbox i, s.sem i, s.refs i⟩

def pending (s : Paging k) : List (Msg2 k) := s.msq2 ++ s.outbox.filterMap toMsg2

/-- Messages that have been taken but not handed on. -/
def lag (s : Paging k) : Nat :=
  s.msq1.length + s.outbox.length + match s.sched with
    | .resend _ => 2
    | _ => 0

end Paging

/-- The views of process `i` with `m` pages. -/
inductive Shape (i : Fin k) (m : Nat) : View k → Prop
  | idle (pc n refs) : pc = .register ∨ pc = .start ∨ pc = .load ∨ pc = .send → Shape i m ⟨pc, [], n, refs⟩
  | asked (page : Nat) (n rest) : Shape i m ⟨.reply, [⟨1, page, i⟩], n, page :: rest⟩
  | granted (fr page n rest) : 0 ≤ fr → page < m → Shape i m ⟨.reply, [⟨2, fr, i⟩], n, page :: rest⟩
  | faulted (n refs) : Shape i m ⟨.reply, [⟨2, -1, i⟩], n, refs⟩
  | refused (page n rest) : m ≤ page → Shape i m ⟨.reply, [⟨2, -2, i⟩], n, page :: rest⟩
  | exiting (n) : Shape i m ⟨.exited, [⟨1, -9, i⟩], n, []⟩
  | exited (n refs) : (∀ page ∈ refs.head?, m ≤ page) → Shape i m ⟨.exited, [], n, refs⟩

/-- A step of process `i` that leaves the scheduler's queues alone. -/
inductive Turn (i : Fin k) (m : Nat) : View k → View k → Prop
  | dispatched (pc n refs) : pc = .start ∨ pc = .load → Turn i m ⟨pc, [], n + 1, refs⟩ ⟨.send, [], n, refs⟩
  | request (page : Nat) (n rest) : Turn i m ⟨.send, [], n, page :: rest⟩ ⟨.reply, [⟨1, page, i⟩], n, page :: rest⟩
  | finish (n) : Turn i m ⟨.send, [], n, []⟩ ⟨.exited, [⟨1, -9, i⟩], n, []⟩
  | granted (fr page n rest) : 0 ≤ fr → page < m →
      Turn i m ⟨.reply, [⟨2, fr, i⟩], n, page :: rest⟩ ⟨.send, [], n, rest⟩
  | faulted (n refs) : Turn i m ⟨.reply, [⟨2, -1, i⟩], n, refs⟩ ⟨.load, [], n, refs⟩
  | refused (page n rest) : m ≤ page → Turn i m ⟨.reply, [⟨2, -2, i⟩], n, page :: rest⟩ ⟨.exited, [], n, page :: rest⟩

/-- What the MMU makes of the request of process `i`. -/
inductive Answer (f : Nat) (i : Fin k) (m : Nat) (s : Mmu k) : View k → View k → Mmu k → List (MmuMsg k) → Prop
  | hit (page : Nat) (n rest mem) : page < m → (s.entry i page).frame ≠ -1 → 0 ≤ (s.entry i page).frame →
      s.Handled f ⟨i, page⟩ mem [.reply (s.entry i page).frame i] →
      Answer f i m s ⟨.reply, [⟨1, page, i⟩], n, page :: rest⟩
        ⟨.reply, [⟨2, (s.entry i page).frame, i⟩], n, page :: rest⟩ mem [.reply (s.entry i page).frame i]
  | fault (page : Nat) (n rest mem) : page < m → (s.entry i page).frame = -1 →
      s.Handled f ⟨i, page⟩ mem [.reply (-1) i, .sched 1 i] →
      Answer f i m s ⟨.reply, [⟨1, page, i⟩], n, page :: rest⟩ ⟨.reply, [⟨2, -1, i⟩], n, page :: rest⟩ mem
        [.reply (-1) i, .sched 1 i]
  | refuse (page : Nat) (n rest mem) : m ≤ page → s.Handled f ⟨i, page⟩ mem [.sched 2 i, .reply (-2) i] →
      Answer f i m s ⟨.reply, [⟨1, page, i⟩], n, page :: rest⟩ ⟨.reply, [⟨2, -2, i⟩], n, page :: rest⟩ mem
        [.sched 2 i, .reply (-2) i]
  | exit (n mem) : s.Handled f ⟨i, -9⟩ mem [.sched 2 i] →
      Answer f i m s ⟨.exited, [⟨1, -9, i⟩], n, []⟩ ⟨.exited, [], n, []⟩ mem [.sched 2 i]

theorem Turn.shape {m : Nat} {v v' : View k} (h : Turn i m v v') : Shape i m v' := by
  cases h with
  | dispatched => exact .idle _ _ _ (by simp)
  | request => exact .asked _ _ _
  | finish => exact .exiting _
  | granted => exact .idle _ _ _ (by simp)
  | faulted => exact .idle _ _ _ (by simp)
  | refused page n rest hm => exact .exited _ _ (by simpa using hm)

theorem Answer.shape {m : Nat} {s mem : Mmu k} {v v' : View k} {out : List (MmuMsg k)}
    (h : Answer f i m s v v' mem out) : Shape i m v' := by
  cases h with
  | hit page n rest mem hlt _ h0 => exact .granted _ _ _ _ h0 hlt
  | fault => exact .faulted _ _
  | refuse page n rest mem hm => exact .refused _ _ _ hm
  | exit => exact .exited _ _ (by simp)

/-- What a step changes. -/
inductive Effect (f : Nat) (mi : Fin k → Nat) (s s' : Paging k) : Prop
  /-- a message goes on its way -/
  | hand (hview : s'.view = s.view) (hqueued : (queued s').Perm (queued s)) (hpending : s'.pending = s.pending)
      (hwait : s'.sched = .wait ↔ s.sched = .wait) (hmmu : s'.mmu = s.mmu) (hlag : s'.lag < s.lag)
  | proc (i : Fin k) (v : View k) (hturn : Turn i (mi i) (s.view i) v) (hview : s'.view = update s.view i v)
      (hqueued : (queued s').Perm (queued s)) (hpending : s'.pending = s.pending)
      (hwait : s'.sched = .wait ↔ s.sched = .wait) (hmmu : s'.mmu = s.mmu) (hlag : s'.lag = s.lag)
  | register (i : Fin k) (n : Nat) (refs : List Nat) (hidle : s.view i = ⟨.register, [], n, refs⟩)
      (hview : s'.view = update s.view i ⟨.start, [], n, refs⟩) (hqueued : (queued s').Perm (i :: queued s))
      (hpending : s'.pending = s.pending) (hwait : s'.sched = .wait ↔ s.sched = .wait) (hmmu : s'.mmu = s.mmu)
      (hlag : s'.lag = s.lag + 1)
  | signal (i : Fin k) (hview : s'.view = update s.view i { s.view i with sem := (s.view i).sem + 1 })
      (hqueued : (queued s).Perm (i :: queued s')) (hpending : s'.pending = s.pending)
      (hwait : s.sched ≠ .wait ∧ s'.sched = .wait) (hmmu : s'.mmu = s.mmu) (hlag : s'.lag = s.lag)
  | read (m : Msg2 k) (hview : s'.view = s.view)
      (hqueued : (queued s').Perm (if m.type = 1 then m.pid :: queued s else queued s))
      (hpending : s.pending = m :: s'.pending) (hwait : s.sched = .wait ∧ s'.sched ≠ .wait) (hmmu : s'.mmu = s.mmu)
      (hlag : s'.lag = s.lag + if m.type = 1 then 2 else 0)
  | answer (i : Fin k) (v : View k) (out : List (MmuMsg k)) (hanswer : Answer f i (mi i) s.mmu (s.view i) v s'.mmu out)
      (hview : s'.view = update s.view i v) (hqueued : (queued s').Perm (queued s))
      (hpending : s'.pending = s.pending ++ out.filterMap toMsg2) (hwait : s'.sched = .wait ↔ s.sched = .wait)
      (hlag : s'.lag = s.lag + out.length)

/-! ## The effect of a step -/

namespace Paging

variable {s s' : Paging k}

theorem view_goto (s : Paging k) (i : Fin k) (p : ProcPc) :
    (s.goto i p).view = update s.view i { s.view i with pc := p } := by
  funext j
  unfold view
  rw [goto_pc]
  by_cases hj : j = i
  · rw [hj, if_pos rfl, Function.update_self]
    rfl
  · rw [if_neg hj, Function.update_of_ne hj]
    rfl

/-- Everything about the others stays. -/
theorem view_eq_update {v : View k} (hi : s'.view i = v) (hother : ∀ j, j ≠ i → s'.view j = s.view j) :
    s'.view = update s.view i v := by
  funext j
  by_cases hj : j = i
  · rw [hj, Function.update_self, hi]
  · rw [Function.update_of_ne hj, hother j hj]

theorem loopSched_ne_wait (s : Paging k) : s.loopSched.sched ≠ .wait := by
  unfold loopSched
  dsimp only
  split <;> simp

/-- At the end of its loop the scheduler holds no pid. -/
theorem queued_loopSched (s : Paging k) : queued s.loopSched = s.msq1 := by
  unfold queued loopSched
  dsimp only
  split
  · next h => split at h <;> cases h
  · next h => split at h <;> cases h
  · exact List.append_nil _

theorem lag_loopSched (s : Paging k) : s.loopSched.lag = s.msq1.length + s.outbox.length := by
  unfold lag loopSched
  dsimp only
  split
  · next h => split at h <;> cases h
  · rfl

end Paging

namespace Accounts

variable {x : Account k} {s s' : Paging k}

theorem effect_proc (A : Accounts f mi x) (hshape : ∀ i, Shape i (mi i) (x.sys.view i)) (hown : OwnReply x (.proc j))
    (h : x.sys.ProcMove j s') : Effect f mi x.sys s' := by
  have S := A.stage j
  have hS := hshape j
  cases h with
  | register hpc =>
    rw [hpc] at S
    have hidle : x.sys.view j = ⟨.register, [], x.sys.sem j, x.sys.refs j⟩ := by rw [Paging.view, hpc, S.1]
    refine .register j _ _ hidle ?_ ?_ rfl Iff.rfl rfl ?_
    · rw [Paging.view_goto]
      show update x.sys.view j { x.sys.view j with pc := .start } = _
      rw [hidle]
    · unfold queued
      dsimp only [Paging.goto]
      rw [List.append_assoc]
      exact List.perm_middle
    · simp only [Paging.lag, Paging.goto, List.length_append, List.length_singleton]
      omega
  | dispatched hpc hsem =>
    have hmail : mail x.sys.msq3 x.sys.outbox j = [] := by rcases hpc with hpc | hpc <;> rw [hpc] at S <;> exact S.1
    obtain ⟨n, hn⟩ := Nat.exists_eq_add_of_lt hsem
    have hview : x.sys.view j = ⟨x.sys.pc j, [], n + 1, x.sys.refs j⟩ := by
      rw [Paging.view, hmail, hn, Nat.zero_add]
    refine .proc j ⟨.send, [], n, x.sys.refs j⟩ (hview ▸ .dispatched _ _ _ hpc) ?_ (.refl _) rfl Iff.rfl rfl rfl
    refine Paging.view_eq_update ?_ fun i hi => ?_
    · simp only [Paging.view, Paging.goto, Function.update_self, hmail, hn]
      congr
      omega
    · simp only [Paging.view, Paging.goto, Function.update_of_ne hi]
  | request page rest hpc hrefs =>
    rw [hpc] at S
    have hview : x.sys.view j = ⟨.send, [], x.sys.sem j, page :: rest⟩ := by rw [Paging.view, hpc, S.1, hrefs]
    refine .proc j ⟨.reply, [⟨1, page, j⟩], x.sys.sem j, page :: rest⟩ (hview ▸ .request _ _ _) ?_ (.refl _) rfl
      Iff.rfl rfl rfl
    refine Paging.view_eq_update ?_ fun i hi => ?_
    · have hmail := mail_send_self (m := Msg3.mk 1 page j) S.1
      simp only [Paging.view, Paging.goto, Function.update_self, hmail, hrefs]
    · have hmail : mail (x.sys.msq3 ++ [Msg3.mk 1 page j]) x.sys.outbox i = mail x.sys.msq3 x.sys.outbox i :=
        mail_send_other hi
      simp only [Paging.view, Paging.goto, Function.update_of_ne hi, hmail]
  | finish hpc hrefs =>
    rw [hpc] at S
    have hview : x.sys.view j = ⟨.send, [], x.sys.sem j, []⟩ := by rw [Paging.view, hpc, S.1, hrefs]
    refine .proc j ⟨.exited, [⟨1, -9, j⟩], x.sys.sem j, []⟩ (hview ▸ .finish _) ?_ (.refl _) rfl Iff.rfl rfl rfl
    refine Paging.view_eq_update ?_ fun i hi => ?_
    · have hmail := mail_send_self (m := Msg3.mk 1 (-9) j) S.1
      simp only [Paging.view, Paging.goto, Function.update_self, hmail, hrefs]
    · have hmail : mail (x.sys.msq3 ++ [Msg3.mk 1 (-9) j]) x.sys.outbox i = mail x.sys.msq3 x.sys.outbox i :=
        mail_send_other hi
      simp only [Paging.view, Paging.goto, Function.update_of_ne hi, hmail]
  | receive m q hpc hrecv =>
    -- the reply is all the mail `j` has
    obtain ⟨type, num, pid⟩ := m
    obtain rfl : pid = j := hown hpc ⟨type, num, pid⟩ (by rw [hrecv]; rfl)
    obtain rfl : type = 2 := (recv_mem hrecv).2.1
    have hmem : (⟨2, num, pid⟩ : Msg3 k) ∈ mail x.sys.msq3 x.sys.outbox pid :=
      List.mem_filter.2 ⟨List.mem_append_left _ (recv_mem hrecv).1, by simp⟩
    have hmail : mail x.sys.msq3 x.sys.outbox pid = [⟨2, num, pid⟩] := (A.stage pid).singleton hmem
    have hrest : mail q x.sys.outbox pid = [] := (mail_recv_self hrecv hmail).2
    have hview : x.sys.view pid = ⟨.reply, [⟨2, num, pid⟩], x.sys.sem pid, x.sys.refs pid⟩ := by
      rw [Paging.view, hpc, hmail]
    have hother : ∀ i, i ≠ pid → mail q x.sys.outbox i = mail x.sys.msq3 x.sys.outbox i :=
      fun i hi => mail_recv_other hrecv hi
    -- what is left to show for each reply
    have hgoto : ∀ (pc : ProcPc) (refs : List Nat), Turn pid (mi pid) (x.sys.view pid) ⟨pc, [], x.sys.sem pid, refs⟩ →
        Effect f mi x.sys ({ x.sys with
          msq3 := q, received := (pid, pid) :: x.sys.received, refs := update x.sys.refs pid refs }.goto pid pc) := by
      intro pc refs hturn
      refine .proc pid _ hturn ?_ (.refl _) rfl Iff.rfl rfl rfl
      refine Paging.view_eq_update ?_ fun i hi => ?_
      · simp only [Paging.view, Paging.goto, Function.update_self, hrest]
      · simp only [Paging.view, Paging.goto, Function.update_of_ne hi, hother i hi]
    have hstay : update x.sys.refs pid (x.sys.refs pid) = x.sys.refs := Function.update_eq_self _ _
    unfold Paging.onReply
    dsimp only
    rw [hview] at hS hgoto
    split
    · next hnum =>
      subst hnum
      have hturn := hgoto .load (x.sys.refs pid) (.faulted _ _)
      rwa [hstay] at hturn
    split
    · next hnum =>
      subst hnum
      generalize x.sys.refs pid = refs at hS hgoto hstay
      cases hS with
      | granted _ _ _ _ h0 _ => omega
      | refused page n rest hle =>
        have hturn := hgoto .exited (page :: rest) (.refused _ _ _ hle)
        rwa [hstay] at hturn
    · next hfault hillegal =>
      generalize x.sys.refs pid = refs at hS hgoto
      cases hS with
      | granted fr page n rest h0 hlt => exact hgoto .send rest (.granted _ _ _ _ h0 hlt)
      | faulted => exact absurd rfl hfault
      | refused => exact absurd rfl hillegal

theorem effect_sched (h : s.SchedMove s') : Effect f mi s s' := by
  cases h with
  | take pid rest hs hq =>
    refine .hand rfl ?_ rfl (by simp [hs]) rfl ?_
    · simp only [queued, hs, hq, List.append_nil]
      exact List.perm_append_singleton pid rest
    · simp only [Paging.lag, hs, hq, List.length_cons]
      omega
  | signal pid hs =>
    refine .signal pid ?_ ?_ rfl (by simp [hs]) rfl ?_
    · refine Paging.view_eq_update ?_ fun i hi => ?_
      · simp only [Paging.view, Function.update_self]
      · simp only [Paging.view, Function.update_of_ne hi]
    · simp only [queued, hs, List.append_nil]
      exact List.perm_append_singleton pid _
    · simp only [Paging.lag, hs]
  | fault pid rest hs hq =>
    refine .read ⟨1, pid⟩ rfl ?_ ?_ ⟨hs, by simp⟩ rfl ?_
    · simp only [queued, hs, List.append_nil, if_true]
      exact List.perm_append_singleton pid _
    · simp only [Paging.pending, hq, List.cons_append]
    · simp only [Paging.lag, hs, if_true]
  | terminated pid rest hs hq =>
    refine .read ⟨2, pid⟩ rfl ?_ ?_ ⟨hs, Paging.loopSched_ne_wait _⟩ rfl ?_
    · rw [Paging.queued_loopSched, Baton.queued_wait hs]
      exact .refl _
    · simp only [Paging.pending, hq, List.cons_append]
      rfl
    · rw [Paging.lag_loopSched]
      simp [Paging.lag, hs]
  | other m rest hs hq h1 h2 =>
    refine .read m rfl ?_ ?_ ⟨hs, Paging.loopSched_ne_wait _⟩ rfl ?_
    · rw [Paging.queued_loopSched, Baton.queued_wait hs, if_neg h1]
    · simp only [Paging.pending, hq, List.cons_append]
      rfl
    · rw [Paging.lag_loopSched]
      simp [Paging.lag, hs, h1]
  | resend pid hs =>
    refine .hand rfl ?_ rfl ?_ rfl ?_
    · rw [Paging.queued_loopSched]
      simp only [queued, hs, List.Perm.refl]
    · simp [hs, Paging.loopSched_ne_wait]
    · rw [Paging.lag_loopSched]
      simp only [Paging.lag, hs, List.length_append, List.length_singleton]
      omega

theorem effect_mmu (A : Accounts f mi x) (hshape : ∀ i, Shape i (mi i) (x.sys.view i)) (h : x.sys.MmuMove f s') :
    Effect f mi x.sys s' := by
  cases h with
  | send m out hout =>
    refine .hand ?_ ?_ ?_ ?_ ?_ ?_
    · funext i
      have hmail : mail ({ x.sys with outbox := out }.post m).msq3 out i = mail x.sys.msq3 x.sys.outbox i := by
        rw [mail_post, hout]
      cases m <;> simpa only [Paging.view, Paging.post, View.mk.injEq, true_and, and_true] using hmail
    · cases m <;> exact .refl _
    · cases m <;> simp [Paging.pending, Paging.post, hout, toMsg2, List.filterMap_cons]
    · cases m <;> exact Iff.rfl
    · cases m <;> rfl
    · cases m <;> simp only [Paging.lag, Paging.post, hout, List.length_cons] <;> omega
  | receive m q mem out hout hrecv hh =>
    obtain ⟨type, num, i⟩ := m
    obtain rfl : type = 1 := (recv_mem hrecv).2.1
    have hmem : (⟨1, num, i⟩ : Msg3 k) ∈ mail x.sys.msq3 x.sys.outbox i :=
      List.mem_filter.2 ⟨List.mem_append_left _ (recv_mem hrecv).1, by simp⟩
    have hmail : mail x.sys.msq3 x.sys.outbox i = [⟨1, num, i⟩] := (A.stage i).singleton hmem
    have hrest : mail q [] i = [] := hout ▸ (mail_recv_self hrecv hmail).2
    have hsplit : ∀ j, mail q out j = mail q [] j ++ mail [] out j := by
      intro j
      simp [mail]
    have hH := Mmu.handled_of_handle hh
    -- what is left to show for each answer
    have hanswer : Answer f i (mi i) x.sys.mmu (x.sys.view i)
        ⟨x.sys.pc i, mail [] out i, x.sys.sem i, x.sys.refs i⟩ mem out →
        (∀ j, j ≠ i → mail [] out j = []) → Effect f mi x.sys { x.sys with msq3 := q, mmu := mem, outbox := out } := by
      intro hanswer hother
      refine .answer i _ out hanswer ?_ (.refl _) ?_ Iff.rfl ?_
      · refine Paging.view_eq_update ?_ fun j hj => ?_
        · simp only [Paging.view, hsplit i, hrest, List.nil_append]
        · have hj' : mail q [] j = mail x.sys.msq3 [] j := mail_recv_other hrecv hj
          simp only [Paging.view, hsplit j, hother j hj, List.append_nil, hj', hout]
      · simp [Paging.pending, hout]
      · simp only [Paging.lag, hout, List.length_nil]
        omega
    have hview : x.sys.view i = ⟨x.sys.pc i, [⟨1, num, i⟩], x.sys.sem i, x.sys.refs i⟩ := by
      rw [Paging.view, hmail]
    have hS := hshape i
    rw [hview] at hS hanswer
    generalize x.sys.pc i = pc at hS hanswer
    generalize x.sys.refs i = refs at hS hanswer
    have hreply : ∀ num : Int, mail [] [.reply num i] i = [⟨2, num, i⟩] := fun num => by simp [mail, toMsg3]
    cases hS with
    | asked page n rest =>
      have hH' := hH
      cases hH' with
      | idle hnum | exit hnum => simp only at hnum; omega
      | illegal h0 hle =>
        rw [A.mem.mi] at hle
        refine hanswer ?_ fun j hj => by simp [mail, toMsg3, hj.symm]
        have hmail' : mail [] [.sched 2 i, .reply (-2) i] i = [⟨2, -2, i⟩] := hreply (-2)
        rw [hmail']
        exact .refuse _ _ _ _ (by simpa using hle) hH
      | hit page' hnum hlt hframe =>
        obtain rfl : page = page' := by simpa using hnum
        rw [A.mem.mi] at hlt
        refine hanswer ?_ fun j hj => by simp [mail, toMsg3, hj.symm]
        rw [hreply]
        exact .hit _ _ _ _ hlt hframe (A.mem.owns.range (i, page) hframe).1 hH
      | fault page' ind hnum hlt hframe hscan =>
        obtain rfl : page = page' := by simpa using hnum
        rw [A.mem.mi] at hlt
        refine hanswer ?_ fun j hj => by simp [mail, toMsg3, hj.symm]
        have hmail' : mail [] [.reply (-1) i, .sched 1 i] i = [⟨2, -1, i⟩] := hreply (-1)
        rw [hmail']
        exact .fault _ _ _ _ hlt hframe hH
    | exiting n =>
      obtain rfl := Mmu.handle_exit hh
      exact hanswer (.exit _ _ hH) fun j hj => rfl

/-- **Each step has one of the effects.** -/
theorem effect (A : Accounts f mi x) (hshape : ∀ i, Shape i (mi i) (x.sys.view i)) {a : Actor k} (hown : OwnReply x a)
    (h : x.sys.step f a = some s') : Effect f mi x.sys s' := by
  cases a with
  | proc j => exact A.effect_proc hshape hown (Paging.procMove_of_step h)
  | sched => exact effect_sched (Paging.schedMove_of_step h)
  | mmu => exact A.effect_mmu hshape (Paging.mmuMove_of_step h)

end Accounts

/-! ## Whose turn it is -/

structure Turns (s : Paging k) : Prop where
  calls : ∀ i, (queued s).count i + (s.view i).sem + (recalls s.pending).count i = (s.view i).asleep
  busy : ∑ i, (s.view i).busy + s.pending.length = if s.sched = .wait then 1 else 0

theorem recalls_append (q q' : List (Msg2 k)) : recalls (q ++ q') = recalls q ++ recalls q' := by
  simp [recalls]

section
variable {m : Nat} {v v' : View k} {mem mem' : Mmu k} {out : List (MmuMsg k)}

theorem Turn.turns (h : Turn i m v v') : v'.asleep + v.sem = v.asleep + v'.sem ∧ v'.busy = v.busy := by
  cases h with
  | dispatched pc n refs hpc =>
    have hn : 1 + n = n + 1 := Nat.add_comm 1 n
    rcases hpc with rfl | rfl <;> simp [View.asleep, View.busy, hn]
  | granted fr page n rest h0 =>
    have hfr : fr ≠ -1 := by omega
    simp [View.asleep, View.busy, h0, hfr]
  | request | finish | faulted | refused => simp [View.asleep, View.busy]

theorem Answer.turns (h : Answer f i m mem v v' mem' out) :
    v'.sem = v.sem ∧ v'.asleep = v.asleep + (recalls (out.filterMap toMsg2)).count i ∧
      v'.busy + (out.filterMap toMsg2).length = v.busy ∧ ∀ j, j ≠ i → (recalls (out.filterMap toMsg2)).count j = 0 := by
  cases h with
  | hit page n rest mem hlt hframe h0 =>
    simp [View.asleep, View.busy, h0, hframe, toMsg2, recalls, List.filterMap_cons]
  | fault | refuse | exit =>
    simp +contextual [View.asleep, View.busy, toMsg2, recalls, List.filterMap_cons, List.count_eq_zero]

end

namespace Effect

variable {s s' : Paging k}

theorem shape (E : Effect f mi s s') (h : ∀ i, Shape i (mi i) (s.view i)) (i : Fin k) : Shape i (mi i) (s'.view i) := by
  have hupdate : ∀ (j : Fin k) (v : View k), Shape j (mi j) v → Shape i (mi i) (update s.view j v i) := by
    intro j v hv
    by_cases hij : i = j
    · rw [hij, Function.update_self]
      exact hv
    · rw [Function.update_of_ne hij]
      exact h i
  cases E with
  | hand hview | read _ hview =>
    rw [hview]
    exact h i
  | proc j v hturn hview =>
    rw [hview]
    exact hupdate j v hturn.shape
  | register j n refs _ hview =>
    rw [hview]
    exact hupdate j _ (.idle _ _ _ (by simp))
  | signal j hview =>
    rw [hview]
    refine hupdate j _ ?_
    have hj := h j
    generalize s.view j = v at hj
    cases hj with
    | idle pc n refs hpc => exact .idle _ _ _ hpc
    | asked => exact .asked _ _ _
    | granted _ _ _ _ h0 hlt => exact .granted _ _ _ _ h0 hlt
    | faulted => exact .faulted _ _
    | refused _ _ _ hle => exact .refused _ _ _ hle
    | exiting => exact .exiting _
    | exited _ _ hle => exact .exited _ _ hle
  | answer j v out hanswer hview =>
    rw [hview]
    exact hupdate j v hanswer.shape

/-- The sum over all processes when the view of `i` becomes `v`. -/
theorem sum_busy {v : View k} (hview : s'.view = update s.view i v) :
    ∑ j, (s'.view j).busy + (s.view i).busy = ∑ j, (s.view j).busy + v.busy := by
  rw [hview]
  exact Tally.sum_update (fun _ v => v.busy) s.view i v

theorem turns (E : Effect f mi s s') (T : Turns s) : Turns s' := by
  have hcalls := T.calls
  have hbusy := T.busy
  cases E with
  | hand hview hqueued hpending hwait =>
    refine ⟨fun i => ?_, ?_⟩
    · rw [hview, hpending, hqueued.count_eq]
      exact hcalls i
    · rw [hview, hpending, hbusy]
      exact if_congr hwait.symm rfl rfl
  | proc i v hturn hview hqueued hpending hwait =>
    obtain ⟨hasleep, hb⟩ := hturn.turns
    refine ⟨fun j => ?_, ?_⟩
    · rw [hview, hpending, hqueued.count_eq]
      by_cases hj : j = i
      · subst hj
        rw [Function.update_self]
        have := hcalls j
        omega
      · rw [Function.update_of_ne hj]
        exact hcalls j
    · have hsum := sum_busy hview
      rw [hpending, if_congr hwait rfl rfl]
      omega
  | register i n refs hidle hview hqueued hpending hwait =>
    have hi := hcalls i
    rw [hidle] at hi
    refine ⟨fun j => ?_, ?_⟩
    · rw [hview, hpending, hqueued.count_eq]
      by_cases hj : j = i
      · subst hj
        rw [Function.update_self, List.count_cons_self]
        simp only [View.asleep] at hi ⊢
        omega
      · rw [Function.update_of_ne hj, List.count_cons_of_ne (Ne.symm hj)]
        exact hcalls j
    · have hsum := sum_busy hview
      rw [hidle] at hsum
      rw [hpending, if_congr hwait rfl rfl]
      simp only [View.busy] at hsum hbusy ⊢
      omega
  | signal i hview hqueued hpending hwait =>
    refine ⟨fun j => ?_, ?_⟩
    · have hj' := hcalls j
      rw [hqueued.count_eq] at hj'
      rw [hview, hpending]
      by_cases hj : j = i
      · subst hj
        rw [Function.update_self]
        rw [List.count_cons_self] at hj'
        simp only [View.asleep] at hj' ⊢
        omega
      · rw [Function.update_of_ne hj]
        rwa [List.count_cons_of_ne (Ne.symm hj)] at hj'
    · have hsum := sum_busy hview
      have hself : ({ s.view i with sem := (s.view i).sem + 1 } : View k).busy = (s.view i).busy + 1 := by
        simp only [View.busy]
        omega
      rw [hself] at hsum
      rw [if_neg hwait.1] at hbusy
      rw [if_pos hwait.2, hpending]
      omega
  | read m hview hqueued hpending hwait =>
    rw [hpending, List.length_cons, if_pos hwait.1] at hbusy
    refine ⟨fun j => ?_, ?_⟩
    · have hj := hcalls j
      rw [hpending] at hj
      rw [hview, hqueued.count_eq]
      by_cases hm : m.type = 1
      · rw [if_pos hm]
        simp only [recalls, hm, List.filter_cons, List.map_cons, List.count_cons, decide_true, if_true] at hj ⊢
        omega
      · rw [if_neg hm]
        simpa only [recalls, hm, List.filter_cons, decide_false, Bool.false_eq_true, if_false] using hj
    · rw [hview, if_neg hwait.2]
      omega
  | answer i v out hanswer hview hqueued hpending hwait =>
    obtain ⟨hsem, hasleep, hb, hother⟩ := hanswer.turns
    refine ⟨fun j => ?_, ?_⟩
    · have hj' := hcalls j
      rw [hview, hpending, hqueued.count_eq, recalls_append, List.count_append]
      by_cases hj : j = i
      · subst hj
        rw [Function.update_self]
        omega
      · rw [Function.update_of_ne hj, hother j hj]
        omega
    · have hsum := sum_busy hview
      rw [hpending, List.length_append, if_congr hwait rfl rfl]
      omega

end Effect

theorem Turns.init (f : Nat) (mi : Fin k → Nat) (refs : Fin k → List Nat) : Turns (Paging.init f mi refs) where
  calls _ := rfl
  busy := by simp [Paging.init, Paging.view, Paging.pending, View.busy]

end OsLab.A8
