import Mathlib.Data.Fintype.Card
import OsLab.A8.Lru
import OsLab.A8.Routing

/-!
# Accounting at the end of a run (A8/mmu.c, A8/sched.c, A8/process.c)

| here | there |
| --- | --- |
| `terminates` | the pid in a request on which the MMU does `terminated_processes++` (mmu.c:120-147, :148-179) |
| `counts`     | the pid in a type 2 message on which the scheduler does (sched.c:77-81) |
| `Account`    | the system with both recorded |
| `mail`       | what is under way between a process and the MMU: on `msqid3` or still to be sent |
| `Stage`      | where a process can be, given its mail and whether it was terminated |

Nothing of this depends on what the scheduler does. It ends when a process acts on the reply to another
one: the first lives on although it was terminated, or exits although it was not.
-/

namespace OsLab.A8

variable {k f : Nat} {mi : Fin k → Nat} {i j : Fin k}

/-- Whom the MMU terminates in its next step. -/
def terminates (s : Paging k) : Actor k → List (Fin k)
  | .mmu =>
    match s.outbox, recv 1 s.msq3 with
    | [], some (m, _) => if m.num = -9 ∨ (s.mmu.SM1 m.pid).mi ≤ m.num then [m.pid] else []
    | _, _ => []
  | _ => []

/-- Whom the scheduler counts in its next step. -/
def counts (s : Paging k) : Actor k → List (Fin k)
  | .sched =>
    match s.sched, s.msq2 with
    | .wait, m :: _ => if m.type = 2 then [m.pid] else []
    | _, _ => []
  | _ => []

/-- Latest last. -/
structure Account (k : Nat) where
  sys : Paging k
  terminated : List (Fin k)
  counted : List (Fin k)

namespace Account

def init (f : Nat) (mi : Fin k → Nat) (refs : Fin k → List Nat) : Account k := ⟨.init f mi refs, [], []⟩

def step (f : Nat) (x : Account k) (a : Actor k) : Option (Account k) :=
  (x.sys.step f a).map fun s => ⟨s, x.terminated ++ terminates x.sys a, x.counted ++ counts x.sys a⟩

end Account

/-- A process that takes a reply takes its own. -/
def OwnReply (x : Account k) : Actor k → Prop
  | .proc i => x.sys.pc i = .reply → ∀ m ∈ (recv 2 x.sys.msq3).map Prod.fst, m.pid = i
  | _ => True

instance (x : Account k) : ∀ a, Decidable (OwnReply x a)
  | .proc i => inferInstanceAs (Decidable (_ → ∀ m ∈ (recv 2 x.sys.msq3).map Prod.fst, m.pid = i))
  | .sched | .mmu => isTrue trivial

/-! ## Queues -/

theorem recv_split {t : Nat} {q rest : List (Msg3 k)} {m : Msg3 k} (h : recv t q = some (m, rest)) :
    ∃ l₁ l₂, q = l₁ ++ m :: l₂ ∧ rest = l₁ ++ l₂ ∧ m.type = t := by
  obtain ⟨m', hfind, heq⟩ := Option.map_eq_some_iff.1 h
  cases heq
  obtain ⟨htype, l₁, l₂, rfl, hl₁⟩ := List.find?_eq_some_iff_append.1 hfind
  refine ⟨l₁, l₂, rfl, ?_, by simpa using htype⟩
  rw [List.eraseP_append_right _ fun b hb => by simpa using hl₁ b hb]
  simp [htype]

/-- What the MMU still has to send on `msqid3`, and on `msqid2`. -/
def toMsg3 : MmuMsg k → Option (Msg3 k)
  | .reply num pid => some ⟨2, num, pid⟩
  | .sched _ _ => none

def toMsg2 : MmuMsg k → Option (Msg2 k)
  | .sched type pid => some ⟨type, pid⟩
  | .reply _ _ => none

def mail (q : List (Msg3 k)) (out : List (MmuMsg k)) (i : Fin k) : List (Msg3 k) :=
  (q ++ out.filterMap toMsg3).filter fun m => m.pid = i

/-- The pids of type 2 messages on their way to the scheduler. -/
def reports (q : List (Msg2 k)) (out : List (MmuMsg k)) : List (Fin k) :=
  ((q ++ out.filterMap toMsg2).filter fun m => m.type = 2).map Msg2.pid

section
variable {q rest : List (Msg3 k)} {m : Msg3 k} {out : List (MmuMsg k)}

theorem mail_send_other (hi : i ≠ m.pid) : mail (q ++ [m]) out i = mail q out i := by
  simp [mail, hi.symm]

theorem mail_send_self (h : mail q out m.pid = []) : mail (q ++ [m]) out m.pid = [m] := by
  unfold mail at h ⊢
  rw [List.filter_append, List.append_eq_nil_iff] at h
  rw [List.filter_append, List.filter_append, h.1, h.2, List.filter_cons_of_pos (by simp)]
  rfl

theorem mail_recv_other {t : Nat} (h : recv t q = some (m, rest)) (hi : i ≠ m.pid) :
    mail rest out i = mail q out i := by
  obtain ⟨l₁, l₂, rfl, rfl, -⟩ := recv_split h
  simp [mail, hi.symm]

theorem mail_recv_self {t : Nat} (h : recv t q = some (m, rest)) {x : Msg3 k} (hx : mail q out m.pid = [x]) :
    x = m ∧ mail rest out m.pid = [] := by
  obtain ⟨l₁, l₂, rfl, rfl, -⟩ := recv_split h
  unfold mail at hx ⊢
  simp only [List.append_assoc, List.cons_append, List.filter_append, List.filter_cons, decide_true, if_true] at hx ⊢
  rw [List.append_eq_singleton_iff] at hx
  rcases hx with ⟨h₁, h₂⟩ | ⟨-, h₂⟩
  · obtain ⟨rfl, hrest⟩ := List.cons.inj h₂
    exact ⟨rfl, by rw [h₁, hrest]; rfl⟩
  · cases h₂

/-- The MMU's next message is mail already. -/
theorem mail_post (s : Paging k) (m : MmuMsg k) (out : List (MmuMsg k)) (i : Fin k) :
    mail (s.post m).msq3 out i = mail s.msq3 (m :: out) i := by
  cases m <;> simp [mail, Paging.post, toMsg3, List.filterMap_cons]

theorem reports_post (s : Paging k) (m : MmuMsg k) (out : List (MmuMsg k)) :
    reports (s.post m).msq2 out = reports s.msq2 (m :: out) := by
  cases m <;> simp [reports, Paging.post, toMsg2, List.filterMap_cons]

end

/-! ## The stages of a process -/

/-- `dead` says whether the MMU has terminated it. -/
def Stage (i : Fin k) (dead : Prop) : ProcPc → List (Msg3 k) → Prop
  | .reply, mail => (∃ page : Nat, mail = [⟨1, page, i⟩] ∧ ¬ dead) ∨ ∃ num, mail = [⟨2, num, i⟩] ∧ (num = -2 ↔ dead)
  | .exited, mail => mail = [⟨1, -9, i⟩] ∧ ¬ dead ∨ mail = [] ∧ dead
  | _, mail => mail = [] ∧ ¬ dead

/-- The request of a process whose mail the MMU reads: a page while it waits, or -9, and it is not terminated. -/
theorem Stage.request {dead : Prop} {pc : ProcPc} {m : Msg3 k} (h : Stage i dead pc [m]) (hm : m.type = 1) :
    ¬ dead ∧ (pc = .reply ∧ (∃ page : Nat, m.num = page) ∨ pc = .exited ∧ m.num = -9) := by
  cases pc with
  | reply =>
    rcases h with ⟨page, hmail, hdead⟩ | ⟨num, hmail, -⟩
    · cases hmail
      exact ⟨hdead, .inl ⟨rfl, page, rfl⟩⟩
    · cases hmail
      cases hm
  | exited =>
    rcases h with ⟨hmail, hdead⟩ | ⟨hmail, -⟩
    · cases hmail
      exact ⟨hdead, .inr ⟨rfl, rfl⟩⟩
    · cases hmail
  | register | start | send | load => cases h.1

theorem Stage.singleton {dead : Prop} {pc : ProcPc} {m : Msg3 k} {l : List (Msg3 k)} (h : Stage i dead pc l)
    (hm : m ∈ l) : l = [m] := by
  have hone : ∀ x : Msg3 k, l = [x] → l = [m] := by
    rintro x rfl
    rw [List.mem_singleton.1 hm]
  have hnil : l ≠ [] := List.ne_nil_of_mem hm
  cases pc with
  | reply =>
    rcases h with ⟨page, hl, -⟩ | ⟨num, hl, -⟩
    · exact hone _ hl
    · exact hone _ hl
  | exited =>
    rcases h with ⟨hl, -⟩ | ⟨hl, -⟩
    · exact hone _ hl
    · exact absurd hl hnil
  | register | start | send | load => exact absurd h.1 hnil

structure Accounts (f : Nat) (mi : Fin k → Nat) (x : Account k) : Prop where
  mem : MmuInv f mi x.sys.mmu
  stage : ∀ i, Stage i (i ∈ x.terminated) (x.sys.pc i) (mail x.sys.msq3 x.sys.outbox i)
  once : x.terminated.Nodup
  total : x.sys.mmu.terminatedProcesses = x.terminated.length
  reported : x.terminated = x.counted ++ reports x.sys.msq2 x.sys.outbox
  released : ∀ i ∈ x.terminated, ∀ p, (x.sys.mmu.entry i p).frame = -1

namespace Accounts

variable {x : Account k} {s s' : Paging k}

/-- The MMU's memory stays. -/
theorem congr (A : Accounts f mi x) {counted : List (Fin k)} (hmmu : s.mmu = x.sys.mmu)
    (hstage : ∀ i, Stage i (i ∈ x.terminated) (s.pc i) (mail s.msq3 s.outbox i))
    (hreported : x.terminated = counted ++ reports s.msq2 s.outbox) : Accounts f mi ⟨s, x.terminated, counted⟩ where
  mem := by
    show MmuInv f mi s.mmu
    exact hmmu ▸ A.mem
  stage := hstage
  once := A.once
  total := by
    show s.mmu.terminatedProcesses = _
    rw [hmmu]
    exact A.total
  reported := hreported
  released i hi p := by
    show (s.mmu.entry i p).frame = -1
    rw [hmmu]
    exact A.released i hi p

/-- Process `j` goes to another position, and only its mail changes. -/
theorem goto (A : Accounts f mi x) (hpc : s.pc = x.sys.pc) (hmmu : s.mmu = x.sys.mmu) (hmsq2 : s.msq2 = x.sys.msq2)
    (hout : s.outbox = x.sys.outbox) (hother : ∀ i, i ≠ j → mail s.msq3 x.sys.outbox i = mail x.sys.msq3 x.sys.outbox i)
    (p : ProcPc) (hstage : Stage j (j ∈ x.terminated) p (mail s.msq3 x.sys.outbox j)) :
    Accounts f mi ⟨s.goto j p, x.terminated, x.counted⟩ := by
  refine A.congr hmmu (fun i => ?_) ?_
  · show Stage i _ ((s.goto j p).pc i) (mail s.msq3 s.outbox i)
    rw [Paging.goto_pc, hout]
    split
    · next hij => exact hij ▸ hstage
    · next hij =>
      rw [hpc, hother i hij]
      exact A.stage i
  · show _ = _ ++ reports s.msq2 s.outbox
    rw [hmsq2, hout]
    exact A.reported

theorem proc (A : Accounts f mi x) (hown : OwnReply x (.proc j)) (h : x.sys.ProcMove j s') :
    Accounts f mi ⟨s', x.terminated, x.counted⟩ := by
  have S := A.stage j
  cases h with
  | register hpc =>
    rw [hpc] at S
    exact A.goto (s := { x.sys with msq1 := x.sys.msq1 ++ [j] }) rfl rfl rfl rfl (fun _ _ => rfl) .start S
  | dispatched hpc hsem =>
    have S' : Stage j (j ∈ x.terminated) .send (mail x.sys.msq3 x.sys.outbox j) := by
      rcases hpc with hpc | hpc <;> rw [hpc] at S <;> exact S
    exact A.goto (s := { x.sys with sem := Function.update x.sys.sem j (x.sys.sem j - 1) }) rfl rfl rfl rfl
      (fun _ _ => rfl) .send S'
  | request page rest hpc hrefs =>
    rw [hpc] at S
    have hmail := mail_send_self (m := Msg3.mk 1 page j) S.1
    have S' : Stage j (j ∈ x.terminated) .reply (mail (x.sys.msq3 ++ [Msg3.mk 1 page j]) x.sys.outbox j) :=
      Or.inl ⟨page, hmail, S.2⟩
    exact A.goto (s := { x.sys with msq3 := x.sys.msq3 ++ [Msg3.mk 1 page j] }) rfl rfl rfl rfl
      (fun _ hi => mail_send_other hi) .reply S'
  | finish hpc hrefs =>
    rw [hpc] at S
    have hmail := mail_send_self (m := Msg3.mk 1 (-9) j) S.1
    have S' : Stage j (j ∈ x.terminated) .exited (mail (x.sys.msq3 ++ [Msg3.mk 1 (-9) j]) x.sys.outbox j) :=
      Or.inl ⟨hmail, S.2⟩
    exact A.goto (s := { x.sys with msq3 := x.sys.msq3 ++ [Msg3.mk 1 (-9) j] }) rfl rfl rfl rfl
      (fun _ hi => mail_send_other hi) .exited S'
  | receive m q hpc hrecv =>
    -- the reply is all the mail `j` has
    obtain rfl : m.pid = j := hown hpc m (by rw [hrecv]; rfl)
    rw [hpc] at S
    have htype := (recv_mem hrecv).2.1
    obtain ⟨hnum, hmail⟩ : (m.num = -2 ↔ m.pid ∈ x.terminated) ∧ mail q x.sys.outbox m.pid = [] := by
      rcases S with ⟨page, hmail, -⟩ | ⟨num, hmail, hdead⟩
      · rw [← (mail_recv_self hrecv hmail).1] at htype
        cases htype
      · obtain ⟨hm, hrest⟩ := mail_recv_self hrecv hmail
        exact ⟨by rw [← hdead, ← hm], hrest⟩
    have hother : ∀ i, i ≠ m.pid → mail q x.sys.outbox i = mail x.sys.msq3 x.sys.outbox i :=
      fun i hi => mail_recv_other hrecv hi
    have hlive : m.num ≠ -2 → m.pid ∉ x.terminated := fun hne hdead => hne (hnum.2 hdead)
    set t : Paging k := { x.sys with msq3 := q, received := (m.pid, m.pid) :: x.sys.received }
    unfold Paging.onReply
    split
    · next hfault =>
      exact A.goto (s := t) rfl rfl rfl rfl hother .load ⟨hmail, hlive (by omega)⟩
    split
    · next hillegal =>
      exact A.goto (s := t) rfl rfl rfl rfl hother .exited
        (Or.inr ⟨hmail, hnum.1 hillegal⟩)
    · next hframe =>
      exact A.goto (s := { t with refs := Function.update t.refs m.pid (t.refs m.pid).tail }) rfl rfl rfl rfl
        hother .send ⟨hmail, hlive hframe⟩

theorem sched (A : Accounts f mi x) (h : x.sys.SchedMove s') :
    Accounts f mi ⟨s', x.terminated, x.counted ++ counts x.sys .sched⟩ := by
  -- what the scheduler takes off its queue it counts
  have hmove : ∀ s : Paging k, s.mmu = x.sys.mmu → s.pc = x.sys.pc → s.msq3 = x.sys.msq3 → s.outbox = x.sys.outbox →
      counts x.sys .sched ++ reports s.msq2 s.outbox = reports x.sys.msq2 x.sys.outbox →
      Accounts f mi ⟨s, x.terminated, x.counted ++ counts x.sys .sched⟩ := by
    intro s hmmu hpc hmsq3 hout hreports
    refine A.congr hmmu (fun i => ?_) ?_
    · rw [hpc, hmsq3, hout]
      exact A.stage i
    · rw [List.append_assoc, hreports]
      exact A.reported
  have hnone : x.sys.sched ≠ .wait → counts x.sys .sched = [] := by
    intro hs
    unfold counts
    dsimp only
    split
    · next hw _ => exact absurd hw hs
    · rfl
  cases h with
  | take pid rest hs hq => exact hmove _ rfl rfl rfl rfl (by rw [hnone (by simp [hs])]; rfl)
  | signal pid hs => exact hmove _ rfl rfl rfl rfl (by rw [hnone (by simp [hs])]; rfl)
  | resend pid hs => exact hmove _ rfl rfl rfl rfl (by rw [hnone (by simp [hs])]; rfl)
  | fault pid rest hs hq => exact hmove _ rfl rfl rfl rfl (by simp [counts, reports, hs, hq])
  | terminated pid rest hs hq =>
    exact hmove _ rfl rfl rfl rfl (by simp [Paging.loopSched, counts, reports, hs, hq])
  | other m rest hs hq h1 h2 =>
    exact hmove _ rfl rfl rfl rfl (by simp [Paging.loopSched, counts, reports, hs, hq, h2])

theorem send (A : Accounts f mi x) {m : MmuMsg k} {out : List (MmuMsg k)} (hout : x.sys.outbox = m :: out) :
    Accounts f mi ⟨{ x.sys with outbox := out }.post m, x.terminated, x.counted⟩ := by
  have hpost : ∀ s : Paging k, (s.post m).mmu = s.mmu ∧ (s.post m).pc = s.pc ∧ (s.post m).outbox = s.outbox := by
    intro s
    cases m <;> exact ⟨rfl, rfl, rfl⟩
  obtain ⟨hmmu, hpc, hout'⟩ := hpost { x.sys with outbox := out }
  refine A.congr hmmu (fun i => ?_) ?_
  · rw [hpc, hout', mail_post, ← hout]
    exact A.stage i
  · rw [hout', reports_post, ← hout]
    exact A.reported

section
variable {m : Msg3 k} {q : List (Msg3 k)} {mem : Mmu k} {out : List (MmuMsg k)}

/-- The request the MMU takes is all the mail of its process. -/
theorem request (A : Accounts f mi x) (hrecv : recv 1 x.sys.msq3 = some (m, q)) :
    (m.pid ∉ x.terminated ∧ (x.sys.pc m.pid = .reply ∧ (∃ page : Nat, m.num = page) ∨
      x.sys.pc m.pid = .exited ∧ m.num = -9)) ∧ mail q x.sys.outbox m.pid = [] := by
  obtain ⟨hmem, htype, -⟩ := recv_mem hrecv
  have hmail : mail x.sys.msq3 x.sys.outbox m.pid = [m] :=
    (A.stage m.pid).singleton (List.mem_filter.2 ⟨List.mem_append_left _ hmem, by simp⟩)
  have S := A.stage m.pid
  rw [hmail] at S
  exact ⟨S.request htype, (mail_recv_self hrecv hmail).2⟩

/-- What is left to show for a request when `T` are the pids the MMU terminates on it. -/
theorem answer (A : Accounts f mi x) (hout : x.sys.outbox = []) (hrecv : recv 1 x.sys.msq3 = some (m, q))
    (h : x.sys.mmu.handle f ⟨m.pid, m.num⟩ = some (mem, out)) {T : List (Fin k)} (hT : T = [] ∨ T = [m.pid])
    (hstage : Stage m.pid (m.pid ∈ T) (x.sys.pc m.pid) (mail [] out m.pid))
    (hother : ∀ i, i ≠ m.pid → mail [] out i = [])
    (hcount : mem.terminatedProcesses = x.sys.mmu.terminatedProcesses + T.length) (hreports : reports [] out = T)
    (hframes : m.pid ∈ T → ∀ p, (mem.entry m.pid p).frame = -1) :
    Accounts f mi ⟨{ x.sys with msq3 := q, mmu := mem, outbox := out }, x.terminated ++ T, x.counted⟩ := by
  obtain ⟨⟨hlive, -⟩, hrest⟩ := A.request hrecv
  rw [hout] at hrest
  have hmem_iff : ∀ i, i ≠ m.pid → (i ∈ x.terminated ++ T ↔ i ∈ x.terminated) := by
    intro i hi
    rcases hT with rfl | rfl <;> simp [hi]
  have hsplit : ∀ i, mail q out i = mail q [] i ++ mail [] out i := by
    intro i
    simp [mail]
  refine ⟨A.mem.handle h, fun i => ?_, ?_, ?_, ?_, fun i hi p => ?_⟩
  · show Stage i (i ∈ x.terminated ++ T) (x.sys.pc i) (mail q out i)
    rcases eq_or_ne i m.pid with rfl | hi
    · rw [hsplit, hrest, List.nil_append, List.mem_append, or_iff_right hlive]
      exact hstage
    · rw [hsplit, hother i hi, List.append_nil, mail_recv_other hrecv hi, hmem_iff i hi, ← hout]
      exact A.stage i
  · rcases hT with rfl | rfl
    · rw [List.append_nil]
      exact A.once
    · exact List.nodup_append.2 ⟨A.once, List.nodup_singleton _, fun i hi j hj heq => by
        rw [List.mem_singleton.1 hj] at heq
        exact hlive (heq ▸ hi)⟩
  · show mem.terminatedProcesses = _
    rw [hcount, A.total, List.length_append]
  · show _ = x.counted ++ reports x.sys.msq2 out
    have hreported := A.reported
    have hrsplit : reports x.sys.msq2 out = reports x.sys.msq2 [] ++ reports [] out := by simp [reports]
    rw [hout] at hreported
    rw [hrsplit, hreports, ← List.append_assoc, ← hreported]
  · show (mem.entry i p).frame = -1
    by_contra hres
    rcases (Mmu.handled_of_handle h).entry A.mem hres with ⟨heq, -⟩ | ⟨-, heq⟩
    · have hi' : m.pid = i := congrArg Request.pid heq
      rcases List.mem_append.1 hi with hi | hi
      · exact hlive (hi' ▸ hi)
      · exact hres (hi' ▸ hframes (hi' ▸ hi) p)
    · rw [heq] at hres
      rcases List.mem_append.1 hi with hi | hi
      · exact hres (A.released i hi p)
      · have hi' : i = m.pid := by
          rcases hT with rfl | rfl
          · exact absurd hi List.not_mem_nil
          · exact List.mem_singleton.1 hi
        rw [← heq] at hres
        exact hres (hi' ▸ hframes (hi' ▸ hi) p)

theorem receive (A : Accounts f mi x) (hout : x.sys.outbox = []) (hrecv : recv 1 x.sys.msq3 = some (m, q))
    (h : x.sys.mmu.handle f ⟨m.pid, m.num⟩ = some (mem, out)) :
    Accounts f mi ⟨{ x.sys with msq3 := q, mmu := mem, outbox := out },
      x.terminated ++ (if m.num = -9 ∨ (x.sys.mmu.SM1 m.pid).mi ≤ m.num then [m.pid] else []), x.counted⟩ := by
  obtain ⟨⟨-, hreq⟩, -⟩ := A.request hrecv
  have hreply : ∀ num : Int, (num = -2 ↔ m.pid ∈ ([] : List (Fin k))) ↔ num ≠ -2 := by simp
  have hpage : 0 ≤ m.num → x.sys.pc m.pid = .reply := by
    intro h0
    rcases hreq with ⟨hpc, -⟩ | ⟨-, hnum⟩
    · exact hpc
    · omega
  cases Mmu.handled_of_handle h with
  | idle hnum =>
    simp only at hnum
    rcases hreq with ⟨-, page, hpage⟩ | ⟨-, hexit⟩ <;> omega
  | exit hnum =>
    simp only at hnum
    have hpc : x.sys.pc m.pid = .exited := by
      rcases hreq with ⟨-, page, hpage⟩ | ⟨hpc, -⟩
      · omega
      · exact hpc
    have It := A.mem.tick
    rw [if_pos (.inl hnum)]
    refine A.answer hout hrecv h (.inr rfl) ?_ (fun i _ => rfl) ?_ rfl fun _ p => Mmu.frame_release It m.pid p
    · rw [hpc]
      exact Or.inr ⟨rfl, List.mem_singleton_self _⟩
    · exact congrArg (· + 1) (Mmu.release_counters x.sys.mmu.tick m.pid).2
  | illegal h0 hmi =>
    simp only at h0 hmi
    have It := A.mem.tick
    rw [if_pos (.inr hmi)]
    refine A.answer hout hrecv h (.inr rfl) ?_ (fun i hi => by simp [mail, toMsg3, hi.symm]) ?_ rfl fun _ p => ?_
    · rw [hpage h0]
      exact Or.inr ⟨-2, by simp [mail, toMsg3, List.filterMap_cons], iff_of_true rfl (List.mem_singleton_self _)⟩
    · exact congrArg (· + 1) (Mmu.release_counters x.sys.mmu.tick m.pid).2
    · rw [Mmu.entry_terminate, Mmu.entry_addInvalidRef]
      exact Mmu.frame_release It m.pid p
  | hit page hnum hlt hframe =>
    simp only at hnum hlt hframe
    have hrange := A.mem.owns.range (m.pid, page) hframe
    rw [if_neg (by omega)]
    refine A.answer hout hrecv h (.inl rfl) ?_ (fun i hi => by simp [mail, toMsg3, hi.symm]) rfl rfl
      fun hT => absurd hT List.not_mem_nil
    rw [hpage (by omega)]
    refine Or.inr ⟨(x.sys.mmu.entry m.pid page).frame, by simp [mail, toMsg3], (hreply _).2 ?_⟩
    have h0 : 0 ≤ (x.sys.mmu.entry m.pid page).frame := hrange.1
    omega
  | fault page ind hnum hlt hframe hscan =>
    simp only at hnum hlt hframe
    rw [if_neg (by omega)]
    refine A.answer hout hrecv h (.inl rfl) ?_ (fun i hi => by simp [mail, toMsg3, hi.symm]) ?_ rfl
      fun hT => absurd hT List.not_mem_nil
    · rw [hpage (by omega)]
      exact Or.inr ⟨-1, by simp [mail, toMsg3], (hreply _).2 (by omega)⟩
    · exact (Mmu.loadPage_counters _ m.pid page ind).2

end

theorem step (A : Accounts f mi x) {a : Actor k} {x' : Account k} (hown : OwnReply x a) (h : x.step f a = some x') :
    Accounts f mi x' := by
  obtain ⟨s', hs', rfl⟩ := Option.map_eq_some_iff.1 h
  cases a with
  | proc j =>
    have A' := A.proc hown (Paging.procMove_of_step hs')
    simpa [terminates, counts] using A'
  | sched =>
    have A' := A.sched (Paging.schedMove_of_step hs')
    simpa [terminates] using A'
  | mmu =>
    cases Paging.mmuMove_of_step hs' with
    | send m out hout =>
      have A' := A.send hout
      simpa [terminates, counts, hout] using A'
    | receive m q mem out hout hrecv hh =>
      have A' := A.receive hout hrecv hh
      simpa [terminates, counts, hout, hrecv] using A'

theorem init (f : Nat) (mi : Fin k → Nat) (refs : Fin k → List Nat) : Accounts f mi (Account.init f mi refs) where
  mem := .init f mi
  stage _ := ⟨rfl, List.not_mem_nil⟩
  once := List.nodup_nil
  total := (Mmu.init_fresh f mi).terminated
  reported := rfl
  released _ hi := absurd hi List.not_mem_nil

/-- Everybody is terminated when the MMU leaves its loop. -/
theorem all_terminated (A : Accounts f mi x) (hk : k ≤ x.sys.mmu.terminatedProcesses) (i : Fin k) :
    i ∈ x.terminated := by
  have hcard : Fintype.card (Fin k) ≤ x.terminated.toFinset.card := by
    rw [Fintype.card_fin, List.toFinset_card_of_nodup A.once, ← A.total]
    exact hk
  have hall := Finset.eq_univ_of_card _ (le_antisymm (Finset.card_le_univ _) hcard)
  exact List.mem_toFinset.1 (hall ▸ Finset.mem_univ i)

end Accounts

/-- **The accounts are right** in every run in which no process acts on the reply to another one. -/
theorem accounts_settled {k : Nat} (f : Nat) (mi : Fin k → Nat) (refs : Fin k → List Nat) (x : Account k)
    (h : Trans.ReachIf (Account.step f) OwnReply (Account.init f mi refs) x) :
    x.terminated.Nodup ∧ x.counted.Nodup ∧
      (x.sys.outbox = [] → k ≤ x.sys.mmu.terminatedProcesses →
        (∀ g : Int, 0 ≤ g → g < f → x.sys.mmu.SM2 g = 1) ∧ ∀ i p, (x.sys.mmu.entry i p).frame = -1) := by
  have A : Accounts f mi x := h.inv (.init f mi refs) fun _ _ _ _ A hown hs => A.step hown hs
  have hcounted : x.counted.Nodup := by
    have honce := A.once
    rw [A.reported] at honce
    exact (List.nodup_append.1 honce).1
  refine ⟨A.once, hcounted, fun _ hk => ?_⟩
  have hframes : ∀ i p, (x.sys.mmu.entry i p).frame = -1 := fun i p => A.released i (A.all_terminated hk i) p
  refine ⟨fun g h0 hg => ?_, hframes⟩
  rcases A.mem.owns.zeroOne g h0 hg with hzero | hone
  · obtain ⟨⟨i, p⟩, hown⟩ := A.mem.owns.owner g h0 hg hzero
    have hframe := hframes i p
    rw [Mmu.own, hframe] at hown
    omega
  · exact hone

/-- Both illegal references refused in turn: everybody is terminated once and every frame is free again. -/
theorem accounts_settled_illegal : ∃ x : Account 2,
    Trans.ReachIf (Account.step 2) OwnReply (Account.init 2 (fun _ => 1) fun _ => [1]) x ∧
      x.terminated = [0, 1] ∧ x.counted = [0, 1] ∧ (∀ g : Int, 0 ≤ g → g < 2 → x.sys.mmu.SM2 g = 1) := by
  obtain ⟨x, hr, hx⟩ := Trans.exists_reachIf_of_run (Account.step 2) OwnReply
    (Account.init 2 (fun _ => 1) fun _ => [1])
    [.proc 0, .sched, .sched, .proc 0, .proc 0, .mmu, .mmu, .mmu, .proc 0, .sched,
      .proc 1, .sched, .sched, .proc 1, .proc 1, .mmu, .mmu, .mmu, .proc 1, .sched]
    (fun x : Account 2 => decide (x.terminated = [0, 1] ∧ x.counted = [0, 1] ∧ x.sys.outbox = [] ∧
      2 ≤ x.sys.mmu.terminatedProcesses)) (by decide +kernel)
  obtain ⟨hterminated, hcounted, hout, hk⟩ := of_decide_eq_true hx
  exact ⟨x, hr, hterminated, hcounted, ((accounts_settled 2 (fun _ => 1) (fun _ => [1]) x hr).2.2 hout hk).1⟩

/-- Process 1 receives the reply -2 to process 0 and exits with its frame. Process 0 receives that frame, goes
on and is terminated a second time when it ends, and that makes two. -/
theorem terminated_twice : ∃ x : Account 2,
    Trans.Reach (Account.step 2) (Account.init 2 (fun _ => 1) oneIllegal) x ∧
      ¬ x.terminated.Nodup ∧ ¬ x.counted.Nodup ∧ x.sys.outbox = [] ∧ 2 ≤ x.sys.mmu.terminatedProcesses ∧
      ∃ g : Int, 0 ≤ g ∧ g < 2 ∧ x.sys.mmu.SM2 g ≠ 1 := by
  obtain ⟨x, hr, hx⟩ := Trans.exists_reach_of_run (Account.step 2) (Account.init 2 (fun _ => 1) oneIllegal)
    [.proc 0, .sched, .sched, .proc 0, .proc 0, .mmu, .mmu, .sched,
      .proc 1, .sched, .sched, .proc 1, .proc 1, .mmu, .proc 1,
      .mmu, .mmu, .proc 0, .proc 0, .mmu, .mmu, .sched]
    (fun x : Account 2 => decide (x.terminated = [0, 0] ∧ x.counted = [0, 0] ∧ x.sys.outbox = [] ∧
      2 ≤ x.sys.mmu.terminatedProcesses ∧ (x.sys.mmu.SM2 0 ≠ 1 ∨ x.sys.mmu.SM2 1 ≠ 1))) (by decide +kernel)
  obtain ⟨hterminated, hcounted, hout, hk, hframe⟩ := of_decide_eq_true hx
  refine ⟨x, hr, ?_, ?_, hout, hk, ?_⟩
  · rw [hterminated]; decide
  · rw [hcounted]; decide
  · rcases hframe with h0 | h1
    · exact ⟨0, by decide, by decide, h0⟩
    · exact ⟨1, by decide, by decide, h1⟩

end OsLab.A8
