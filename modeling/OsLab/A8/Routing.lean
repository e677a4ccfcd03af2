import OsLab.A8.Frames
import OsLab.A8.Paging

/-!
# Who receives the MMU's replies (A8/process.c, A8/sched.c, A8/mmu.c)

All processes wait for a reply with the same type on the same queue, so a reply reaches its process
only if nobody else is waiting. The scheduler admits one process at a time, but it may take the MMU's
message about a process that has not received its reply yet: on the illegal path the MMU sends that
message first (mmu.c:164, :174), on the fault path the process may just be slow.

`Baton` is the invariant of the runs in which the scheduler does not do so: the process it waits for
is the only one that moves, and `Active` lists the stages of its request. `Lone` is what remains when it
does so although nobody else has references left.
-/

namespace OsLab.A8

open Function (update)

/-! ## The messages of a request -/

namespace Mmu

variable {k f : Nat} {mi : Fin k → Nat} {s s' : Mmu k} {ms : List (MmuMsg k)}

theorem handle_exit {i : Fin k} (h : s.handle f ⟨i, -9⟩ = some (s', ms)) : ms = [.sched 2 i] := by
  cases handled_of_handle h with
  | exit => rfl
  | idle hnum | illegal hnum | hit page hnum | fault page _ hnum =>
    dsimp only at hnum
    omega

/-- A page is granted, faults or is illegal. -/
theorem handle_page (I : MmuInv f mi s) {i : Fin k} {num : Int} (h0 : 0 ≤ num)
    (h : s.handle f ⟨i, num⟩ = some (s', ms)) :
    (∃ fr, 0 ≤ fr ∧ ms = [.reply fr i]) ∨ ms = [.reply (-1) i, .sched 1 i] ∨ ms = [.sched 2 i, .reply (-2) i] := by
  cases handled_of_handle h with
  | idle hnum | exit hnum =>
    dsimp only at hnum
    omega
  | illegal => exact .inr (.inr rfl)
  | hit page _ _ hframe => exact .inl ⟨_, (I.owns.range (i, page) hframe).1, rfl⟩
  | fault => exact .inr (.inl rfl)

/-- Replies carry the pid of the request, and an exit gets none. -/
theorem handle_reply {r : Request k} (h : s.handle f r = some (s', ms)) {num : Int} {p : Fin k}
    (hm : .reply num p ∈ ms) : p = r.pid ∧ r.num ≠ -9 := by
  cases handled_of_handle h with
  | idle | exit => simp at hm
  | illegal hnum =>
    simp only [List.mem_cons, reduceCtorEq, MmuMsg.reply.injEq, List.not_mem_nil, or_false, false_or] at hm
    exact ⟨hm.2, by omega⟩
  | hit page hnum =>
    simp only [List.mem_cons, MmuMsg.reply.injEq, List.not_mem_nil, or_false] at hm
    exact ⟨hm.2, by omega⟩
  | fault page ind hnum =>
    simp only [List.mem_cons, reduceCtorEq, MmuMsg.reply.injEq, List.not_mem_nil, or_false] at hm
    exact ⟨hm.2, by omega⟩

end Mmu

theorem recv_mem {k : Nat} {t : Nat} {q rest : List (Msg3 k)} {m : Msg3 k} (h : recv t q = some (m, rest)) :
    m ∈ q ∧ m.type = t ∧ ∀ x ∈ rest, x ∈ q := by
  obtain ⟨m', hf, he⟩ := Option.map_eq_some_iff.1 h
  cases he
  exact ⟨List.mem_of_find?_eq_some hf, by simpa using List.find?_some hf, fun x hx => List.mem_of_mem_eraseP hx⟩

/-! ## The property and the condition -/

/-- Every reply has gone to the process whose pid it carries, and at most one process waits for one. -/
def Routed {k : Nat} (s : Paging k) : Prop :=
  (∀ x ∈ s.received, x.1 = x.2) ∧ ∀ i j, s.pc i = .reply → s.pc j = .reply → i = j

/-- The scheduler does not take the MMU's message about a process that is still waiting for its reply,
unless no other process has references left to request. -/
def ReplyFirst {k : Nat} (s : Paging k) : Actor k → Prop
  | .sched => s.sched = .wait → ∀ m ∈ s.msq2.head?, s.pc m.pid = .reply →
      ∀ j, j ≠ m.pid → s.pc j = .exited ∨ s.refs j = []
  | _ => True

instance {k : Nat} (s : Paging k) : ∀ a, Decidable (ReplyFirst s a)
  | .sched => inferInstanceAs (Decidable (_ → _))
  | .proc _ | .mmu => .isTrue trivial

/-! ## One process moves at a time -/

/-- The process is not running and has not been signalled. -/
structure Resting {k : Nat} (s : Paging k) (j : Fin k) : Prop where
  send : s.pc j ≠ .send
  reply : s.pc j ≠ .reply
  sem : s.sem j = 0

/-- The stages of the process the scheduler waits for: its position and semaphore, and what is on
`msqid3`, still to be sent by the MMU and on `msqid2`. -/
inductive Active {k : Nat} (i : Fin k) :
    ProcPc → Nat → List (Msg3 k) → List (MmuMsg k) → List (Msg2 k) → Prop
  | dispatched (p) : p = .start ∨ p = .load → Active i p 1 [] [] []
  | running : Active i .send 0 [] [] []
  | asked (page : Nat) : Active i .reply 0 [⟨1, page, i⟩] [] []
  | answering (fr) : 0 ≤ fr → Active i .reply 0 [] [.reply fr i] []
  | answered (fr) : 0 ≤ fr → Active i .reply 0 [⟨2, fr, i⟩] [] []
  | faulting : Active i .reply 0 [] [.reply (-1) i, .sched 1 i] []
  | fault (p q out q2) : p = .reply ∧ q = [⟨2, -1, i⟩] ∨ p = .load ∧ q = [] →
      out = [.sched 1 i] ∧ q2 = [] ∨ out = [] ∧ q2 = [⟨1, i⟩] → Active i p 0 q out q2
  | refusing : Active i .reply 0 [] [.sched 2 i, .reply (-2) i] []
  | refused (q out) : q = [] ∧ out = [.reply (-2) i] ∨ q = [⟨2, -2, i⟩] ∧ out = [] → Active i .reply 0 q out [⟨2, i⟩]
  | exiting (q out q2) : q = [⟨1, -9, i⟩] ∧ out = [] ∧ q2 = [] ∨ q = [] ∧ out = [.sched 2 i] ∧ q2 = [] ∨
      q = [] ∧ out = [] ∧ q2 = [⟨2, i⟩] → Active i .exited 0 q out q2

/-- The processes on their way to the scheduler. -/
def queued {k : Nat} (s : Paging k) : List (Fin k) :=
  s.msq1 ++ match s.sched with
    | .signal p | .resend p => [p]
    | _ => []

/-- Either the scheduler moves and all processes rest, or it waits for the one process that does not. -/
structure Baton {k : Nat} (s : Paging k) : Prop where
  nodup : (queued s).Nodup
  waiting : ∀ p ∈ queued s, s.pc p = .start ∨ s.pc p = .load
  holder : (s.sched ≠ .wait ∧ (∀ j, Resting s j) ∧ s.msq3 = [] ∧ s.outbox = [] ∧ s.msq2 = []) ∨
    (s.sched = .wait ∧ ∃ i, i ∉ s.msq1 ∧ (∀ j, j ≠ i → Resting s j) ∧
      Active i (s.pc i) (s.sem i) s.msq3 s.outbox s.msq2)

/-- Nobody but `i` has references left, and all replies are for `i`. -/
structure Lone {k : Nat} (i : Fin k) (s : Paging k) : Prop where
  others : ∀ j, j ≠ i → s.pc j ≠ .reply ∧ (s.pc j = .exited ∨ s.refs j = [])
  replies : ∀ m ∈ s.msq3, m.type = 2 → m.pid = i
  requests : ∀ m ∈ s.msq3, m.type = 1 → m.pid ≠ i → m.num = -9
  outbox : ∀ num p, .reply num p ∈ s.outbox → p = i

namespace Lone

variable {k f : Nat} {s s' : Paging k} {i j : Fin k}

/-- A message that may be added to `msqid3`. -/
theorem push (L : Lone i s) {m : Msg3 k} (hreply : m.type = 2 → m.pid = i)
    (hrequest : m.type = 1 → m.pid ≠ i → m.num = -9) :
    (∀ x ∈ s.msq3 ++ [m], x.type = 2 → x.pid = i) ∧ ∀ x ∈ s.msq3 ++ [m], x.type = 1 → x.pid ≠ i → x.num = -9 := by
  constructor <;> intro x hx <;> rcases List.mem_append.1 hx with hx | hx
  · exact L.replies x hx
  · rw [List.mem_singleton.1 hx]; exact hreply
  · exact L.requests x hx
  · rw [List.mem_singleton.1 hx]; exact hrequest

theorem proc (L : Lone i s) (h : s.ProcMove j s') : Lone i s' ∧ ∀ x ∈ s'.received, x ∈ s.received ∨ x.1 = x.2 := by
  -- a process other than `i` keeps what `others` says when it goes to a position that does not wait
  have hgoto : ∀ (p : ProcPc), (j ≠ i → p ≠ .reply ∧ (p = .exited ∨ s.refs j = [])) →
      ∀ j', j' ≠ i → (s.goto j p).pc j' ≠ .reply ∧ ((s.goto j p).pc j' = .exited ∨ s.refs j' = []) := by
    intro p hp j' hne
    rw [Paging.goto_pc]
    split
    · subst j'; exact hp hne
    · exact L.others j' hne
  cases h with
  | register hpc =>
    refine ⟨⟨hgoto .start fun hne => ⟨by simp, ?_⟩, L.replies, L.requests, L.outbox⟩, fun x hx => .inl hx⟩
    exact .inr ((L.others j hne).2.resolve_left (by simp [hpc]))
  | dispatched hpc _ =>
    refine ⟨⟨hgoto .send fun hne => ⟨by simp, ?_⟩, L.replies, L.requests, L.outbox⟩, fun x hx => .inl hx⟩
    exact .inr ((L.others j hne).2.resolve_left (by rcases hpc with hpc | hpc <;> simp [hpc]))
  | request page rest hpc hrefs =>
    -- only `i` has a reference to request
    obtain rfl : j = i := by
      by_contra hne
      rcases (L.others j hne).2 with he | hno
      · rw [hpc] at he; cases he
      · rw [hrefs] at hno; cases hno
    obtain ⟨hreplies, hrequests⟩ := L.push (m := ⟨1, page, j⟩) (fun _ => rfl) fun _ hne => absurd rfl hne
    exact ⟨⟨hgoto .reply fun hne => absurd rfl hne, hreplies, hrequests, L.outbox⟩, fun x hx => .inl hx⟩
  | finish hpc hrefs =>
    obtain ⟨hreplies, hrequests⟩ := L.push (m := ⟨1, -9, j⟩) (fun ht => by cases ht) fun _ _ => rfl
    exact ⟨⟨hgoto .exited fun _ => ⟨by simp, .inl rfl⟩, hreplies, hrequests, L.outbox⟩, fun x hx => .inl hx⟩
  | receive m q hpc hr =>
    obtain rfl : j = i := by
      by_contra hne
      exact (L.others j hne).1 hpc
    obtain ⟨hm, ht, hrest⟩ := recv_mem hr
    have hpid := L.replies m hm ht
    have hlog : ∀ x ∈ (j, m.pid) :: s.received, x ∈ s.received ∨ x.1 = x.2 := fun x hx => by
      rcases List.mem_cons.1 hx with rfl | hx
      · exact .inr hpid.symm
      · exact .inl hx
    unfold Paging.onReply
    split
    · exact ⟨⟨hgoto .load fun hne => absurd rfl hne, fun x hx => L.replies x (hrest x hx),
        fun x hx => L.requests x (hrest x hx), L.outbox⟩, hlog⟩
    split
    · exact ⟨⟨hgoto .exited fun hne => absurd rfl hne, fun x hx => L.replies x (hrest x hx),
        fun x hx => L.requests x (hrest x hx), L.outbox⟩, hlog⟩
    · refine ⟨⟨fun j' hne => ?_, fun x hx => L.replies x (hrest x hx), fun x hx => L.requests x (hrest x hx),
        L.outbox⟩, hlog⟩
      have := hgoto .send (fun hne => absurd rfl hne) j' hne
      simpa [Paging.goto, hne] using this

theorem sched (L : Lone i s) (h : s.SchedMove s') : Lone i s' ∧ s'.received = s.received := by
  cases h <;> exact ⟨⟨L.others, L.replies, L.requests, L.outbox⟩, rfl⟩

theorem mmu (L : Lone i s) (h : s.MmuMove f s') : Lone i s' ∧ s'.received = s.received := by
  cases h with
  | send m out hout =>
    have hrest : ∀ num p, .reply num p ∈ out → p = i := fun num p hp =>
      L.outbox num p (by rw [hout]; exact List.mem_cons_of_mem _ hp)
    cases m with
    | sched type p => exact ⟨⟨L.others, L.replies, L.requests, hrest⟩, rfl⟩
    | reply num p =>
      have hp : p = i := L.outbox num p (by rw [hout]; exact List.mem_cons_self)
      obtain ⟨hreplies, hrequests⟩ := L.push (m := ⟨2, num, p⟩) (fun _ => hp) fun ht => by cases ht
      exact ⟨⟨L.others, hreplies, hrequests, hrest⟩, rfl⟩
  | receive m q mmu out _ hr hh =>
    obtain ⟨hm, ht, hrest⟩ := recv_mem hr
    refine ⟨⟨L.others, fun x hx => L.replies x (hrest x hx), fun x hx => L.requests x (hrest x hx),
      fun num p hp => ?_⟩, rfl⟩
    -- a request of another process is an exit, which gets no reply
    obtain ⟨rfl, h9⟩ := Mmu.handle_reply hh hp
    by_contra hne
    exact h9 (L.requests m hm ht hne)

end Lone

/-! ## The stages of a request -/

namespace Active

variable {k : Nat} {i : Fin k} {p : ProcPc} {n : Nat} {q : List (Msg3 k)} {out : List (MmuMsg k)} {q2 : List (Msg2 k)}

theorem registered (A : Active i p n q out q2) : p ≠ .register := by
  cases A with
  | dispatched p hp => rcases hp with rfl | rfl <;> simp
  | fault p q out q2 hp _ => rcases hp with ⟨rfl, -⟩ | ⟨rfl, -⟩ <;> simp
  | _ => simp

theorem signalled (A : Active i p n q out q2) (hn : 0 < n) : n = 1 ∧ q = [] ∧ out = [] ∧ q2 = [] := by
  cases A with
  | dispatched => exact ⟨rfl, rfl, rfl, rfl⟩
  | _ => omega

theorem sending (A : Active i .send n q out q2) : n = 0 ∧ q = [] ∧ out = [] ∧ q2 = [] := by
  cases A with
  | dispatched _ hp => rcases hp with hp | hp <;> cases hp
  | running => exact ⟨rfl, rfl, rfl, rfl⟩
  | fault _ _ _ _ hp _ => rcases hp with ⟨hp, -⟩ | ⟨hp, -⟩ <;> cases hp

/-- The reply a waiting process receives is its own, and what is left is the MMU's message to the
scheduler. -/
theorem receiving (A : Active i .reply n q out q2) {m : Msg3 k} {rest : List (Msg3 k)}
    (h : recv 2 q = some (m, rest)) : m.pid = i ∧ n = 0 ∧ rest = [] ∧
      (0 ≤ m.num ∧ out = [] ∧ q2 = [] ∨
        m.num = -1 ∧ (out = [.sched 1 i] ∧ q2 = [] ∨ out = [] ∧ q2 = [⟨1, i⟩]) ∨
        m.num = -2 ∧ out = [] ∧ q2 = [⟨2, i⟩]) := by
  have hnil : recv 2 ([] : List (Msg3 k)) = none := rfl
  have hone : ∀ num : Int, recv 2 [(⟨2, num, i⟩ : Msg3 k)] = some (⟨2, num, i⟩, []) := fun _ => rfl
  cases A with
  | dispatched _ hp => rcases hp with hp | hp <;> cases hp
  | asked page => cases h
  | answering fr _ | faulting | refusing => rw [hnil] at h; cases h
  | answered fr h0 =>
    rw [hone] at h; cases h
    exact ⟨rfl, rfl, rfl, .inl ⟨h0, rfl, rfl⟩⟩
  | fault _ _ _ _ hp ho =>
    rcases hp with ⟨-, rfl⟩ | ⟨hp, -⟩
    · rw [hone] at h; cases h
      exact ⟨rfl, rfl, rfl, .inr (.inl ⟨rfl, ho⟩)⟩
    · cases hp
  | refused _ _ hq =>
    rcases hq with ⟨rfl, -⟩ | ⟨rfl, rfl⟩
    · rw [hnil] at h; cases h
    · rw [hone] at h; cases h
      exact ⟨rfl, rfl, rfl, .inr (.inr ⟨rfl, rfl, rfl⟩)⟩

/-- When the scheduler takes its message, the process is gone, waits to be loaded or still waits for its
reply. -/
theorem taken (A : Active i p n q out q2) {m : Msg2 k} {rest : List (Msg2 k)} (h : q2 = m :: rest) :
    m.pid = i ∧ rest = [] ∧ n = 0 ∧
      (p = .load ∧ m.type = 1 ∧ q = [] ∧ out = [] ∨ p = .exited ∧ m.type = 2 ∧ q = [] ∧ out = [] ∨ p = .reply) := by
  cases A with
  | fault _ _ _ _ hp ho =>
    rcases ho with ⟨rfl, rfl⟩ | ⟨rfl, rfl⟩ <;> cases h
    refine ⟨rfl, rfl, rfl, ?_⟩
    rcases hp with ⟨rfl, -⟩ | ⟨rfl, rfl⟩
    · exact .inr (.inr rfl)
    · exact .inl ⟨rfl, rfl, rfl, rfl⟩
  | refused _ _ _ => cases h; exact ⟨rfl, rfl, rfl, .inr (.inr rfl)⟩
  | exiting _ _ _ hq =>
    rcases hq with ⟨-, -, rfl⟩ | ⟨-, -, rfl⟩ | ⟨rfl, rfl, rfl⟩ <;> cases h
    exact ⟨rfl, rfl, rfl, .inr (.inl ⟨rfl, rfl, rfl, rfl⟩)⟩
  | _ => cases h

/-- Whatever is under way carries the pid of the process. -/
theorem own (A : Active i p n q out q2) :
    (∀ m ∈ q, m.pid = i) ∧ ∀ num p, .reply num p ∈ out → p = i := by
  cases A with
  | fault _ _ _ _ hp ho =>
    constructor
    · rcases hp with ⟨-, rfl⟩ | ⟨-, rfl⟩ <;> simp
    · rcases ho with ⟨rfl, -⟩ | ⟨rfl, -⟩ <;> simp
  | refused _ _ hq => rcases hq with ⟨rfl, rfl⟩ | ⟨rfl, rfl⟩ <;> simp
  | exiting _ _ _ hq => rcases hq with ⟨rfl, rfl, -⟩ | ⟨rfl, rfl, -⟩ | ⟨rfl, rfl, -⟩ <;> simp
  | _ => simp

/-- The MMU sends its next message. -/
theorem post (A : Active i p n q out q2) {m : MmuMsg k} {rest : List (MmuMsg k)} (h : out = m :: rest) :
    match m with
    | .sched type pid => Active i p n q rest (q2 ++ [⟨type, pid⟩])
    | .reply num pid => Active i p n (q ++ [⟨2, num, pid⟩]) rest q2 := by
  cases A with
  | answering fr h0 => cases h; exact .answered fr h0
  | faulting => cases h; exact .fault _ _ _ _ (.inl ⟨rfl, rfl⟩) (.inl ⟨rfl, rfl⟩)
  | fault _ _ _ _ hp ho =>
    rcases ho with ⟨rfl, rfl⟩ | ⟨rfl, rfl⟩ <;> cases h
    exact .fault _ _ _ _ hp (.inr ⟨rfl, rfl⟩)
  | refusing => cases h; exact .refused _ _ (.inl ⟨rfl, rfl⟩)
  | refused _ _ hq =>
    rcases hq with ⟨rfl, rfl⟩ | ⟨rfl, rfl⟩ <;> cases h
    exact .refused _ _ (.inr ⟨rfl, rfl⟩)
  | exiting _ _ _ hq =>
    rcases hq with ⟨rfl, rfl, rfl⟩ | ⟨rfl, rfl, rfl⟩ | ⟨rfl, rfl, rfl⟩ <;> cases h
    exact .exiting _ _ _ (.inr (.inr ⟨rfl, rfl, rfl⟩))
  | _ => cases h

/-- The MMU takes the request and answers it. -/
theorem handle {f : Nat} {mi : Fin k → Nat} {mem mem' : Mmu k} (I : MmuInv f mi mem) (A : Active i p n q [] q2)
    {m : Msg3 k} {rest : List (Msg3 k)} (h : recv 1 q = some (m, rest)) {ms : List (MmuMsg k)}
    (hh : mem.handle f ⟨m.pid, m.num⟩ = some (mem', ms)) : Active i p n rest ms q2 := by
  have hnil : recv 1 ([] : List (Msg3 k)) = none := rfl
  have hone : ∀ num : Int, recv 1 [(⟨1, num, i⟩ : Msg3 k)] = some (⟨1, num, i⟩, []) := fun _ => rfl
  cases A with
  | dispatched _ _ | running => rw [hnil] at h; cases h
  | asked page =>
    rw [hone] at h; cases h
    rcases Mmu.handle_page I (by dsimp only; omega) hh with ⟨fr, h0, rfl⟩ | rfl | rfl
    · exact .answering fr h0
    · exact .faulting
    · exact .refusing
  | answered fr _ => cases h
  | fault _ _ _ _ hp _ => rcases hp with ⟨-, rfl⟩ | ⟨-, rfl⟩ <;> cases h
  | refused _ _ hq => rcases hq with ⟨rfl, -⟩ | ⟨rfl, -⟩ <;> cases h
  | exiting _ _ _ hq =>
    rcases hq with ⟨rfl, -, rfl⟩ | ⟨-, hout, -⟩ | ⟨rfl, -, -⟩
    · rw [hone] at h; cases h
      rw [Mmu.handle_exit hh]
      exact .exiting _ _ _ (.inr (.inl ⟨rfl, rfl, rfl⟩))
    · cases hout
    · rw [hnil] at h; cases h

end Active

/-! ## The baton -/

namespace Baton

variable {k f : Nat} {mi : Fin k → Nat} {s s' : Paging k} {i j : Fin k}

theorem init (f : Nat) (mi : Fin k → Nat) (refs : Fin k → List Nat) : Baton (Paging.init f mi refs) where
  nodup := List.nodup_nil
  waiting p hp := by cases hp
  holder := .inl ⟨by simp [Paging.init], fun j => ⟨by simp [Paging.init], by simp [Paging.init], rfl⟩, rfl, rfl, rfl⟩

theorem queued_wait (h : s.sched = .wait) : queued s = s.msq1 := by
  unfold queued
  rw [h]
  exact List.append_nil _

/-- A process that does not rest is the one the scheduler waits for. -/
theorem active (B : Baton s) (hj : ¬ Resting s j) : s.sched = .wait ∧ j ∉ s.msq1 ∧ (∀ i, i ≠ j → Resting s i) ∧
    Active j (s.pc j) (s.sem j) s.msq3 s.outbox s.msq2 := by
  rcases B.holder with ⟨-, hrest, -⟩ | ⟨hs, i, hi, hrest, A⟩
  · exact absurd (hrest j) hj
  · obtain rfl : j = i := by
      by_contra hne
      exact hj (hrest j hne)
    exact ⟨hs, hi, hrest, A⟩

/-- A step of the process the scheduler waits for, or of the MMU for it. -/
theorem move (B : Baton s) (hs : s.sched = .wait) (hi : i ∉ s.msq1) (hrest : ∀ j, j ≠ i → Resting s j)
    (hmsq1 : s'.msq1 = s.msq1) (hsched : s'.sched = s.sched)
    (hother : ∀ j, j ≠ i → s'.pc j = s.pc j ∧ s'.sem j = s.sem j)
    (A : Active i (s'.pc i) (s'.sem i) s'.msq3 s'.outbox s'.msq2) : Baton s' := by
  have hs' : s'.sched = .wait := hsched.trans hs
  have hq : queued s' = queued s := by rw [queued_wait hs', queued_wait hs, hmsq1]
  refine ⟨hq ▸ B.nodup, fun p hp => ?_, .inr ⟨hs', i, hmsq1 ▸ hi, fun j hj => ?_, A⟩⟩
  · rw [hq, queued_wait hs] at hp
    rw [(hother p fun e => hi (e ▸ hp)).1]
    exact B.waiting p (by rwa [queued_wait hs])
  · obtain ⟨hpc, hsem⟩ := hother j hj
    obtain ⟨h1, h2, h3⟩ := hrest j hj
    exact ⟨hpc ▸ h1, hpc ▸ h2, hsem ▸ h3⟩

/-- A process registers. -/
theorem register (B : Baton s) (hpc : s.pc j = .register) :
    Baton ({ s with msq1 := s.msq1 ++ [j] }.goto j .start) := by
  have hnew : j ∉ queued s := fun hj => by
    rcases B.waiting j hj with h | h <;> rw [hpc] at h <;> cases h
  have hrest : ∀ i, Resting s i → Resting ({ s with msq1 := s.msq1 ++ [j] }.goto j .start) i := by
    intro i hi
    refine ⟨?_, ?_, hi.sem⟩ <;> rw [Paging.goto_pc] <;> split
    · simp
    · exact hi.send
    · simp
    · exact hi.reply
  have hperm : (queued ({ s with msq1 := s.msq1 ++ [j] }.goto j .start)).Perm (j :: queued s) := by
    unfold queued
    dsimp only [Paging.goto]
    rw [List.append_assoc]
    exact List.perm_middle
  refine ⟨hperm.nodup_iff.2 (List.nodup_cons.2 ⟨hnew, B.nodup⟩), fun p hp => ?_, ?_⟩
  · rw [Paging.goto_pc]
    split
    · exact .inl rfl
    · rename_i hne
      exact B.waiting p ((List.mem_cons.1 (hperm.mem_iff.1 hp)).resolve_left hne)
  · rcases B.holder with ⟨hs, hall, h3, ho, h2⟩ | ⟨hs, i, hi, hall, A⟩
    · exact .inl ⟨hs, fun i => hrest i (hall i), h3, ho, h2⟩
    · have hne : i ≠ j := fun e => A.registered (e ▸ hpc)
      refine .inr ⟨hs, i, ?_, fun i' hi' => hrest i' (hall i' hi'), ?_⟩
      · exact fun hmem => hi ((List.mem_append.1 hmem).resolve_right (by simpa using hne))
      · rw [Paging.goto_pc, if_neg hne]; exact A

theorem proc (B : Baton s) (h : s.ProcMove j s') : Baton s' ∧ ∀ x ∈ s'.received, x ∈ s.received ∨ x.1 = x.2 := by
  cases h with
  | register hpc => exact ⟨B.register hpc, fun x hx => .inl hx⟩
  | dispatched hpc hsem =>
    obtain ⟨hs, hj, hrest, A⟩ := B.active fun hR : Resting s j => by have := hR.sem; omega
    obtain ⟨h1, h3, ho, h2⟩ := A.signalled hsem
    refine ⟨B.move hs hj hrest rfl rfl (fun i hi => ?_) ?_, fun x hx => .inl hx⟩
    · simp [Paging.goto, hi]
    · simp only [Paging.goto, Function.update_self, h1, h3, ho, h2]
      exact .running
  | request page rest hpc hrefs =>
    obtain ⟨hs, hj, hrest, A⟩ := B.active fun hR => hR.send hpc
    rw [hpc] at A
    obtain ⟨h1, h3, ho, h2⟩ := A.sending
    refine ⟨B.move hs hj hrest rfl rfl (fun i hi => ?_) ?_, fun x hx => .inl hx⟩
    · simp [Paging.goto, hi]
    · simp only [Paging.goto, Function.update_self, h1, h3, ho, h2]
      exact .asked page
  | finish hpc hrefs =>
    obtain ⟨hs, hj, hrest, A⟩ := B.active fun hR => hR.send hpc
    rw [hpc] at A
    obtain ⟨h1, h3, ho, h2⟩ := A.sending
    refine ⟨B.move hs hj hrest rfl rfl (fun i hi => ?_) ?_, fun x hx => .inl hx⟩
    · simp [Paging.goto, hi]
    · simp only [Paging.goto, Function.update_self, h1, h3, ho, h2]
      exact .exiting _ _ _ (.inl ⟨rfl, rfl, rfl⟩)
  | receive m q hpc hr =>
    obtain ⟨hs, hj, hrest, A⟩ := B.active fun hR => hR.reply hpc
    rw [hpc] at A
    obtain ⟨hpid, h1, rfl, hnum⟩ := A.receiving hr
    refine ⟨?_, fun x hx => ?_⟩
    · unfold Paging.onReply
      rcases hnum with ⟨h0, ho, h2⟩ | ⟨hm, ho⟩ | ⟨hm, ho, h2⟩
      · -- granted
        rw [if_neg (by omega), if_neg (by omega)]
        refine B.move hs hj hrest rfl rfl (fun i hi => by simp [Paging.goto, hi]) ?_
        simp only [Paging.goto, Function.update_self, h1, ho, h2]
        exact .running
      · -- page fault
        rw [if_pos hm]
        refine B.move hs hj hrest rfl rfl (fun i hi => by simp [Paging.goto, hi]) ?_
        simp only [Paging.goto, Function.update_self, h1]
        exact .fault _ _ _ _ (.inr ⟨rfl, rfl⟩) ho
      · -- illegal
        rw [if_neg (by omega), if_pos hm]
        refine B.move hs hj hrest rfl rfl (fun i hi => by simp [Paging.goto, hi]) ?_
        simp only [Paging.goto, Function.update_self, h1, ho, h2]
        exact .exiting _ _ _ (.inr (.inr ⟨rfl, rfl, rfl⟩))
    · have hx : x ∈ (j, m.pid) :: s.received := by
        unfold Paging.onReply at hx
        split at hx
        · exact hx
        split at hx <;> exact hx
      rcases List.mem_cons.1 hx with rfl | hx
      · exact .inr hpid.symm
      · exact .inl hx

/-- The scheduler has taken the message about the process it waits for. -/
theorem lone (B : Baton s) (hi : s.pc i = .reply)
    (hothers : ∀ j, j ≠ i → s.pc j = .exited ∨ s.refs j = []) : Lone i s := by
  obtain ⟨-, -, hrest, A⟩ := B.active fun hR : Resting s i => hR.reply hi
  obtain ⟨hq, ho⟩ := A.own
  refine ⟨fun j hj => ⟨(hrest j hj).reply, hothers j hj⟩, fun m hm _ => hq m hm, fun m hm _ hne => ?_, ho⟩
  exact absurd (hq m hm) hne

/-- The scheduler takes a message of the process it waits for: that one has left or waits to be loaded, and
all processes rest, or it still waits for its reply. -/
theorem taken (B : Baton s) (hok : ReplyFirst s .sched) {m : Msg2 k} {rest : List (Msg2 k)} (hs : s.sched = .wait)
    (hm : s.msq2 = m :: rest) :
    (s.pc m.pid = .load ∧ m.type = 1 ∨ s.pc m.pid = .exited ∧ m.type = 2) ∧ m.pid ∉ s.msq1 ∧ (∀ j, Resting s j) ∧
      s.msq3 = [] ∧ s.outbox = [] ∧ rest = [] ∨ Lone m.pid s := by
  rcases B.holder with ⟨hne, -⟩ | ⟨-, i, hi, hrest, A⟩
  · exact absurd hs hne
  obtain ⟨rfl, hnil, hsem, hcases⟩ := A.taken hm
  have hall : s.pc m.pid = .load ∨ s.pc m.pid = .exited → ∀ j, Resting s j := fun hpc j => by
    by_cases hj : j = m.pid
    · subst hj
      refine ⟨?_, ?_, hsem⟩ <;> rcases hpc with hpc | hpc <;> simp [hpc]
    · exact hrest j hj
  rcases hcases with ⟨hpc, ht, h3, ho⟩ | ⟨hpc, ht, h3, ho⟩ | hpc
  · exact .inl ⟨.inl ⟨hpc, ht⟩, hi, hall (.inl hpc), h3, ho, hnil⟩
  · exact .inl ⟨.inr ⟨hpc, ht⟩, hi, hall (.inr hpc), h3, ho, hnil⟩
  · exact .inr (B.lone hpc (hok hs m (by rw [hm]; rfl) hpc))

/-- The state after a step of the scheduler while all processes rest. -/
theorem idle (hrest : ∀ j, Resting s j) (hpc : s'.pc = s.pc) (hsem : s'.sem = s.sem) (hs : s'.sched ≠ .wait)
    (hnodup : (queued s').Nodup) (hwaiting : ∀ p ∈ queued s', s.pc p = .start ∨ s.pc p = .load)
    (h : s'.msq3 = [] ∧ s'.outbox = [] ∧ s'.msq2 = []) : Baton s' := by
  refine ⟨hnodup, fun p hp => ?_, .inl ⟨hs, fun j => ?_, h⟩⟩
  · rw [hpc]
    exact hwaiting p hp
  · obtain ⟨h1, h2, h3⟩ := hrest j
    exact ⟨hpc ▸ h1, hpc ▸ h2, hsem ▸ h3⟩

/-- Behind the end of its loop the scheduler holds no process. -/
theorem loopSched_idle (t : Paging k) : t.loopSched.sched ≠ .wait ∧ queued t.loopSched = t.msq1 := by
  unfold Paging.loopSched queued
  dsimp only
  split <;> exact ⟨by simp, List.append_nil _⟩

/-- While the scheduler does not wait, all processes rest. -/
theorem resting (B : Baton s) (hs : s.sched ≠ .wait) :
    (∀ j, Resting s j) ∧ s.msq3 = [] ∧ s.outbox = [] ∧ s.msq2 = [] := by
  rcases B.holder with ⟨-, h⟩ | ⟨hs', -⟩
  · exact h
  · exact absurd hs' hs

theorem signal (B : Baton s) {pid : Fin k} (hs : s.sched = .signal pid) :
    Baton { s with sched := .wait, sem := update s.sem pid (s.sem pid + 1) } := by
  have hq : queued s = s.msq1 ++ [pid] := by unfold queued; rw [hs]
  have hnodup := B.nodup
  have hwaiting := B.waiting
  rw [hq] at hnodup hwaiting
  have hpid : pid ∉ s.msq1 := fun hp => (List.nodup_append.1 hnodup).2.2 pid hp pid (by simp) rfl
  obtain ⟨hrest, h3, ho, h2⟩ := B.resting (by simp [hs])
  refine ⟨?_, fun p hp => ?_, .inr ⟨rfl, pid, hpid, fun j hj => ?_, ?_⟩⟩
  · rw [queued_wait rfl]; exact (List.nodup_append.1 hnodup).1
  · rw [queued_wait rfl] at hp
    exact hwaiting p (List.mem_append.2 (.inl hp))
  · refine ⟨(hrest j).send, (hrest j).reply, ?_⟩
    exact (Function.update_of_ne hj _ _).trans (hrest j).sem
  · simp only [Function.update_self, h3, ho, h2, (hrest pid).sem]
    exact .dispatched _ (hwaiting pid (by simp))

theorem sched (B : Baton s) (hok : ReplyFirst s .sched) (h : s.SchedMove s') :
    (Baton s' ∨ ∃ i, Lone i s') ∧ s'.received = s.received := by
  have hwait : s.sched = .wait → s.msq1.Nodup ∧ ∀ p ∈ s.msq1, s.pc p = .start ∨ s.pc p = .load := fun hs => by
    have hn := B.nodup
    have hw := B.waiting
    rw [queued_wait hs] at hn hw
    exact ⟨hn, hw⟩
  cases h with
  | take pid rest hs hm =>
    have hq : queued s = pid :: rest := by unfold queued; rw [hs, hm]; exact List.append_nil _
    have hperm : (rest ++ [pid]).Perm (queued s) := by
      rw [hq]
      exact List.perm_append_singleton pid rest
    obtain ⟨hrest, h⟩ := B.resting (by simp [hs])
    exact ⟨.inl (idle hrest rfl rfl (by simp) (hperm.nodup_iff.2 B.nodup)
      (fun p hp => B.waiting p (hperm.mem_iff.1 hp)) h), rfl⟩
  | signal pid hs => exact ⟨.inl (B.signal hs), rfl⟩
  | fault pid rest hs hm =>
    rcases B.taken hok hs hm with ⟨hpc, hi, hrest, h3, ho, rfl⟩ | L
    · obtain ⟨hn, hw⟩ := hwait hs
      have hpc : s.pc pid = .load := by
        rcases hpc with ⟨hpc, -⟩ | ⟨-, ht⟩
        · exact hpc
        · cases ht
      refine ⟨.inl (idle hrest rfl rfl (by simp) ?_ (fun p hp => ?_) ⟨h3, ho, rfl⟩), rfl⟩
      · exact List.nodup_append.2 ⟨hn, List.nodup_singleton _, fun a ha b hb e => by
          rw [List.mem_singleton] at hb
          exact hi (by rwa [e, hb] at ha)⟩
      · rcases List.mem_append.1 hp with hp | hp
        · exact hw p hp
        · rw [List.mem_singleton] at hp; exact .inr (hp ▸ hpc)
    · exact ⟨.inr ⟨pid, L.others, L.replies, L.requests, L.outbox⟩, rfl⟩
  | terminated pid rest hs hm =>
    rcases B.taken hok hs hm with ⟨-, hi, hrest, h3, ho, rfl⟩ | L
    · obtain ⟨hn, hw⟩ := hwait hs
      obtain ⟨hsched, hq⟩ := loopSched_idle { s with msq2 := [], terminated := s.terminated + 1 }
      exact ⟨.inl (idle hrest rfl rfl hsched (by rw [hq]; exact hn) (by rw [hq]; exact hw) ⟨h3, ho, rfl⟩), rfl⟩
    · exact ⟨.inr ⟨pid, L.others, L.replies, L.requests, L.outbox⟩, rfl⟩
  | other m rest hs hm h1 h2 =>
    rcases B.taken hok hs hm with ⟨ht | ht, -⟩ | L
    · exact absurd ht.2 h1
    · exact absurd ht.2 h2
    · exact ⟨.inr ⟨m.pid, L.others, L.replies, L.requests, L.outbox⟩, rfl⟩
  | resend pid hs =>
    have hq : queued s = s.msq1 ++ [pid] := by unfold queued; rw [hs]
    obtain ⟨hsched, hq'⟩ := loopSched_idle { s with msq1 := s.msq1 ++ [pid] }
    have hqq : queued ({ s with msq1 := s.msq1 ++ [pid] }).loopSched = queued s := hq'.trans hq.symm
    obtain ⟨hrest, h⟩ := B.resting (by simp [hs])
    exact ⟨.inl (idle hrest rfl rfl hsched (hqq ▸ B.nodup) (fun p hp => B.waiting p (hqq ▸ hp)) h), rfl⟩

theorem mmu (B : Baton s) (I : MmuInv f mi s.mmu) (h : s.MmuMove f s') : Baton s' ∧ s'.received = s.received := by
  cases h with
  | send m out hout =>
    rcases B.holder with ⟨-, -, -, ho, -⟩ | ⟨hs, i, hi, hrest, A⟩
    · rw [hout] at ho; cases ho
    · have A' := A.post hout
      cases m with
      | sched type pid => exact ⟨B.move hs hi hrest rfl rfl (fun _ _ => ⟨rfl, rfl⟩) A', rfl⟩
      | reply num pid => exact ⟨B.move hs hi hrest rfl rfl (fun _ _ => ⟨rfl, rfl⟩) A', rfl⟩
  | receive m q mmu out ho hr hh =>
    rcases B.holder with ⟨-, -, h3, -⟩ | ⟨hs, i, hi, hrest, A⟩
    · rw [h3] at hr; cases hr
    · rw [ho] at A
      exact ⟨B.move hs hi hrest rfl rfl (fun _ _ => ⟨rfl, rfl⟩) (A.handle I hr hh), rfl⟩

end Baton

/-! ## The runs that meet the condition -/

structure RouteInv {k : Nat} (f : Nat) (mi : Fin k → Nat) (s : Paging k) : Prop where
  mem : MmuInv f mi s.mmu
  received : ∀ x ∈ s.received, x.1 = x.2
  stage : Baton s ∨ ∃ i, Lone i s

namespace RouteInv

variable {k f : Nat} {mi : Fin k → Nat} {s s' : Paging k}

theorem step (I : RouteInv f mi s) {a : Actor k} (hok : ReplyFirst s a) (h : s.step f a = some s') :
    RouteInv f mi s' := by
  cases a with
  | proc j =>
    have hmv := Paging.procMove_of_step h
    have hmem : MmuInv f mi s'.mmu := by
      have heq : s'.mmu = s.mmu := by
        cases hmv with
        | receive m q _ _ =>
          unfold Paging.onReply
          split
          · rfl
          split <;> rfl
        | _ => rfl
      exact heq ▸ I.mem
    have hstage : (Baton s' ∨ ∃ i, Lone i s') ∧ ∀ x ∈ s'.received, x ∈ s.received ∨ x.1 = x.2 := by
      rcases I.stage with B | ⟨i, L⟩
      · exact (B.proc hmv).imp .inl id
      · exact (L.proc hmv).imp (fun L' => .inr ⟨i, L'⟩) id
    exact ⟨hmem, fun x hx => (hstage.2 x hx).elim (I.received x) id, hstage.1⟩
  | sched =>
    have hmv := Paging.schedMove_of_step h
    have hmem : s'.mmu = s.mmu := by cases hmv <;> rfl
    have hstage : (Baton s' ∨ ∃ i, Lone i s') ∧ s'.received = s.received := by
      rcases I.stage with B | ⟨i, L⟩
      · exact B.sched hok hmv
      · exact (L.sched hmv).imp (fun L' => .inr ⟨i, L'⟩) id
    exact ⟨hmem ▸ I.mem, hstage.2 ▸ I.received, hstage.1⟩
  | mmu =>
    have hmv := Paging.mmuMove_of_step h
    have hmem : MmuInv f mi s'.mmu := by
      cases hmv with
      | send m out _ => cases m <;> exact I.mem
      | receive m q mmu out _ _ hh => exact I.mem.handle hh
    have hstage : (Baton s' ∨ ∃ i, Lone i s') ∧ s'.received = s.received := by
      rcases I.stage with B | ⟨i, L⟩
      · exact (B.mmu I.mem hmv).imp .inl id
      · exact (L.mmu hmv).imp (fun L' => .inr ⟨i, L'⟩) id
    exact ⟨hmem, hstage.2 ▸ I.received, hstage.1⟩

theorem routed (I : RouteInv f mi s) : Routed s := by
  refine ⟨I.received, fun i j hi hj => ?_⟩
  rcases I.stage with B | ⟨l, L⟩
  · by_contra hne
    exact ((B.active fun hR : Resting s i => hR.reply hi).2.2.1 j (Ne.symm hne)).reply hj
  · have hl : ∀ i, s.pc i = .reply → i = l := fun i hi => by
      by_contra hne
      exact (L.others i hne).1 hi
    rw [hl i hi, hl j hj]

end RouteInv

/-- **Replies reach their process** in every run in which the scheduler takes the MMU's message about a
process only after that process has received its reply, or when nobody else has references left. -/
theorem replies_routed {k : Nat} (f : Nat) (mi : Fin k → Nat) (refs : Fin k → List Nat) (s : Paging k)
    (h : Trans.ReachIf (Paging.step f) ReplyFirst (Paging.init f mi refs) s) : Routed s := by
  have I0 : RouteInv f mi (Paging.init f mi refs) :=
    ⟨.init f mi, fun x hx => (by cases hx), .inl (.init f mi refs)⟩
  have I : RouteInv f mi s := h.inv I0 fun _ _ _ _ I hok hs => I.step hok hs
  exact I.routed

/-- Process 0 asks for a page it does not have, process 1 for one it has. -/
def oneIllegal : Fin 2 → List Nat := fun i => if i = 0 then [1] else [0]

/-- The illegal reference is refused before the scheduler goes on. -/
theorem replies_routed_in_turn : ∃ s : Paging 2,
    Trans.ReachIf (Paging.step 2) ReplyFirst (Paging.init 2 (fun _ => 1) oneIllegal) s ∧
      s.received = [(1, 1), (0, 0)] ∧ Routed s := by
  obtain ⟨s, hr, hs⟩ := Trans.exists_reachIf_of_run (Paging.step 2) ReplyFirst
    (Paging.init 2 (fun _ => 1) oneIllegal)
    [.proc 0, .sched, .sched, .proc 0, .proc 0, .mmu, .mmu, .mmu, .proc 0, .sched,
      .proc 1, .sched, .sched, .proc 1, .proc 1, .mmu, .mmu, .proc 1]
    (fun s : Paging 2 => decide (s.received = [(1, 1), (0, 0)])) (by decide +kernel)
  exact ⟨s, hr, of_decide_eq_true hs, replies_routed 2 (fun _ => 1) oneIllegal s hr⟩

/-- The MMU has told the scheduler that process 0 is over and not yet sent its reply -2: process 1 is
admitted, waits for a reply too and receives the one for process 0. -/
theorem reply_misrouted : ∃ s : Paging 2,
    Trans.Reach (Paging.step 2) (Paging.init 2 (fun _ => 1) oneIllegal) s ∧ ¬ Routed s := by
  obtain ⟨s, hr, hs⟩ := Trans.exists_reach_of_run (Paging.step 2) (Paging.init 2 (fun _ => 1) oneIllegal)
    [.proc 0, .sched, .sched, .proc 0, .proc 0, .mmu, .mmu, .sched,
      .proc 1, .sched, .sched, .proc 1, .proc 1, .mmu, .proc 1]
    (fun s : Paging 2 => decide ((1, 0) ∈ s.received)) (by decide +kernel)
  exact ⟨s, hr, fun hrouted => absurd (hrouted.1 (1, 0) (of_decide_eq_true hs)) (by decide)⟩

end OsLab.A8
