import OsLab.A3.Cse

/-!
# Commands and roles over unframed pipes (A3/CSE_21CS30009.c)

The pipes carry bytes. Nothing separates one command from the next, and nothing ends it in the buffer it is
read into. A command arrives as it was sent when it is alone in the pipe and the buffer goes on with a NUL
behind it (`Framed`). The text `swaprole` passes the role on under less: whoever reads it reads it after it was
sent as a command (`Passed`).
-/

namespace OsLab.A3

open Function (update)

variable {x x' : Cse} {s d : Side} {m : Move}

@[simp] theorem Side.other_other (s : Side) : s.other.other = s := by cases s <;> rfl

theorem Side.other_ne (s : Side) : s.other ≠ s := by cases s <;> decide

theorem Side.eq_other (h : d ≠ s) : d = s.other := by
  cases s <;> cases d <;> first | rfl | exact absurd rfl h

/-- At most 99 bytes, not empty, no newline. -/
def Command (line : List UInt8) : Prop := line ≠ [] ∧ line.length ≤ 99 ∧ newline ∉ line

instance : DecidablePred Command := fun _ => inferInstanceAs (Decidable (_ ∧ _ ∧ _))

/-- Commands are typed. -/
def Typing (_ : Cse) : Move → Prop
  | .type _ line => Command line
  | _ => True

instance (x : Cse) : ∀ m, Decidable (Typing x m)
  | .type _ line => inferInstanceAs (Decidable (Command line))
  | .enter _ => isTrue trivial
  | .receive _ _ => isTrue trivial

/-! ## Framing -/

/-- Commands without a NUL are typed, one is sent only when the last one has been read, and what is behind the
first one in the buffer that mode E starts with is a NUL. An empty line is no command. -/
def InTurn (x : Cse) : Move → Prop
  | .type _ line => Command line ∧ 0 ∉ line
  | .enter s => x.pipe s = [] ∨ (x.tty s).head? = some newline
  | .receive s _ =>
    s = .e → x.acted .e = [] → (x.child .e).command.bytes[(x.pipe .c).length]? = some 0

instance (x : Cse) : ∀ m, Decidable (InTurn x m)
  | .type _ line => inferInstanceAs (Decidable (Command line ∧ 0 ∉ line))
  | .enter s => inferInstanceAs (Decidable (x.pipe s = [] ∨ (x.tty s).head? = some newline))
  | .receive s _ => inferInstanceAs
      (Decidable (s = .e → x.acted .e = [] → (x.child .e).command.bytes[(x.pipe .c).length]? = some 0))

/-- `pending` is what `d` sent and the other side has not read, `unread` what was typed and `d` has not sent.
`back` is left over from a command of 99 bytes. -/
structure Framed (x : Cse) (d : Side) (pending unread : List (List UInt8)) (back : List UInt8) : Prop where
  typed : x.typed d = x.sent d ++ unread
  sent : x.sent d = x.acted d.other ++ pending
  pipe : x.pipe d = pending.flatten
  tty : x.tty d = back ++ unread.flatMap (· ++ [newline])
  back : back = [] ∨ back = [newline]
  lines : ∀ line ∈ x.typed d, Command line ∧ 0 ∉ line
  single : pending.length ≤ 1

/-- Only the buffer mode E starts with is not clear when a command is received. -/
def ClearBuffer (x : Cse) (s : Side) : Prop :=
  (x.child s).role = .execute → (x.child s).command = .cleared ∨ s = .e ∧ x.acted .e = []

namespace Framed

variable {pending unread : List (List UInt8)} {back : List UInt8}

theorem congr (F : Framed x d pending unread back) (htyped : x'.typed d = x.typed d) (hsent : x'.sent d = x.sent d)
    (hacted : x'.acted d.other = x.acted d.other) (hpipe : x'.pipe d = x.pipe d) (htty : x'.tty d = x.tty d) :
    Framed x' d pending unread back where
  typed := by rw [htyped, hsent, F.typed]
  sent := by rw [hsent, hacted, F.sent]
  pipe := by rw [hpipe, F.pipe]
  tty := by rw [htty, F.tty]
  back := F.back
  lines := by rw [htyped]; exact F.lines
  single := F.single

/-- What was sent and not read is there. -/
theorem pending_nil (F : Framed x d pending unread back) (h : x.pipe d = []) : pending = [] := by
  cases hp : pending with
  | nil => rfl
  | cons line rest =>
    have hline : line ∈ x.typed d := by simp [F.typed, F.sent, hp]
    have hnil : line = [] := by
      have hflat := F.pipe.symm.trans h
      simp only [hp, List.flatten_cons, List.append_eq_nil_iff] at hflat
      exact hflat.1
    exact absurd hnil (F.lines line hline).1.1

/-- What is in the pipe is one command. -/
theorem one (F : Framed x d pending unread back) (h : x.pipe d ≠ []) :
    ∃ line, pending = [line] ∧ x.pipe d = line ∧ Command line ∧ 0 ∉ line := by
  cases hp : pending with
  | nil => exact absurd (by rw [F.pipe, hp]; rfl) h
  | cons line rest =>
    have hrest : rest = [] := by
      have hsingle := F.single
      rw [hp, List.length_cons] at hsingle
      exact List.eq_nil_of_length_eq_zero (by omega)
    subst hrest
    exact ⟨line, rfl, by simp [F.pipe, hp], F.lines line (by simp [F.typed, F.sent, hp])⟩

theorem type (F : Framed x d pending unread back) {line : List UInt8} (hline : Command line ∧ 0 ∉ line) :
    Framed { x with
      tty := update x.tty d (x.tty d ++ (line ++ [newline]))
      typed := update x.typed d (x.typed d ++ [line]) } d pending (unread ++ [line]) back where
  typed := by simp [F.typed]
  sent := F.sent
  pipe := F.pipe
  tty := by simp [F.tty]
  back := F.back
  lines := by
    intro l hl
    simp only [Function.update_self] at hl
    rcases List.mem_append.1 hl with hl | hl
    · exact F.lines l hl
    · exact List.mem_singleton.1 hl ▸ hline
  single := F.single

/-- The next line is sent, or what the last one left over is skipped. -/
theorem enter (F : Framed x d pending unread back) {p : Child} {b : Buffer} {rest : List UInt8}
    (hturn : x.pipe d = [] ∨ (x.tty d).head? = some newline)
    (hget : fgets (x.child d).command (x.tty d) = some (b, rest)) :
    ∃ pending' unread' back', Framed (x.entered d p b.stripNewline.str rest) d pending' unread' back' := by
  rcases F.back with rfl | rfl
  · cases hu : unread with
    | nil =>
      -- nothing is typed: `fgets` waits
      have hempty : x.tty d = [] := by rw [F.tty, hu]; rfl
      rw [hempty] at hget
      exact absurd hget (by simp [fgets])
    | cons line lines =>
      have hmem : line ∈ x.typed d := by simp [F.typed, hu]
      obtain ⟨⟨hne, hlen, hnl⟩, hnul⟩ := F.lines line hmem
      have htty : x.tty d = line ++ newline :: lines.flatMap (· ++ [newline]) := by simp [F.tty, hu]
      have hpipe : x.pipe d = [] := by
        refine hturn.resolve_right fun hhead => ?_
        rw [htty, List.head?_append_of_ne_nil _ hne] at hhead
        exact hnl (List.mem_of_head? hhead)
      obtain ⟨b', hstr, hline⟩ := fgets_line (x.child d).command (lines.flatMap (· ++ [newline])) hlen hnl hnul
      rw [htty, hline, Option.some.injEq, Prod.mk.injEq] at hget
      obtain ⟨rfl, rfl⟩ := hget
      have hpending := F.pending_nil hpipe
      subst hpending
      refine ⟨[line], lines, if line.length = 99 then [newline] else [], ?_, ?_, ?_, ?_, ?_, F.lines, le_rfl⟩
      · simp [Cse.entered, hstr, hne, F.typed, hu]
      · simp [Cse.entered, hstr, hne, F.sent]
      · simp [Cse.entered, hstr, hpipe]
      · simp only [Cse.entered, Function.update_self]
        split_ifs <;> rfl
      · split_ifs <;> simp
  · obtain ⟨b', hstr, hline⟩ := fgets_line (x.child d).command (unread.flatMap (· ++ [newline]))
      (show ([] : List UInt8).length ≤ 99 from Nat.zero_le _) List.not_mem_nil List.not_mem_nil
    have htty : x.tty d = [] ++ newline :: unread.flatMap (· ++ [newline]) := F.tty
    rw [htty, hline, Option.some.injEq, Prod.mk.injEq] at hget
    obtain ⟨rfl, rfl⟩ := hget
    refine ⟨pending, unread, [], ?_, ?_, ?_, ?_, .inl rfl, F.lines, F.single⟩
    · simp [Cse.entered, hstr, F.typed]
    · simp [Cse.entered, hstr, F.sent]
    · simp [Cse.entered, hstr, F.pipe]
    · simp [Cse.entered]

/-- What is read is the command that was sent. -/
theorem receive (F : Framed x s.other pending unread back) (hpipe : x.pipe s.other ≠ [])
    (hend : (x.child s).command.bytes[(x.pipe s.other).length]? = some 0) (p : Child) :
    Framed (x.received s p ((x.child s).command.put ((x.pipe s.other).take 100)).str ((x.pipe s.other).drop 100))
      s.other [] unread back := by
  obtain ⟨line, rfl, hline, ⟨-, hlen, -⟩, hnul⟩ := F.one hpipe
  have hact : ((x.child s).command.put (line.take 100)).str = line := by
    rw [List.take_of_length_le (by omega)]
    exact Buffer.str_put hnul (hline ▸ hend)
  have hrest : line.drop 100 = [] := List.drop_eq_nil_of_le (by omega)
  rw [hline, hact, hrest]
  refine ⟨F.typed, ?_, ?_, F.tty, F.back, F.lines, Nat.zero_le _⟩
  · have hsent := F.sent
    simp only [Side.other_other] at hsent ⊢
    simp [Cse.received, hsent]
  · simp [Cse.received]

end Framed

theorem ClearBuffer.other (h : ClearBuffer x d) (hchild : x'.child d = x.child d) (hacted : x'.acted d = x.acted d) :
    ClearBuffer x' d := by
  intro hrole
  rw [hchild] at hrole ⊢
  rcases h hrole with hclear | ⟨rfl, hnone⟩
  · exact .inl hclear
  · exact .inr ⟨rfl, hacted ▸ hnone⟩

/-- What holds in every run in which commands are sent one at a time. -/
structure FrameInv (x : Cse) : Prop where
  framed : ∀ d, ∃ pending unread back, Framed x d pending unread back
  clear : ∀ s, ClearBuffer x s

namespace FrameInv

theorem init (c e : Buffer) : FrameInv (Cse.init c e) where
  framed d := ⟨[], [], [], rfl, rfl, rfl, rfl, .inl rfl, fun _ h => absurd h List.not_mem_nil, Nat.zero_le _⟩
  clear s hrole := by
    cases s with
    | c => exact absurd hrole (by simp [Cse.init])
    | e => exact .inr ⟨rfl, rfl⟩

theorem step (I : FrameInv x) (hturn : InTurn x m) (h : x.step m = some x') : FrameInv x' := by
  cases Cse.moved_of_step h with
  | type s line =>
    refine ⟨fun d => ?_, fun d => (I.clear d).other rfl rfl⟩
    obtain ⟨pending, unread, back, F⟩ := I.framed d
    by_cases hd : d = s
    · subst hd
      exact ⟨_, _, _, F.type hturn⟩
    · exact ⟨_, _, _, F.congr (by simp [hd]) rfl rfl rfl (by simp [hd])⟩
  | enter s p out rest hrole hround =>
    obtain ⟨b, hget, rfl, rfl⟩ := Child.input_some hround
    refine ⟨fun d => ?_, fun d => ?_⟩
    · obtain ⟨pending, unread, back, F⟩ := I.framed d
      by_cases hd : d = s
      · subst hd
        exact F.enter hturn hget
      · exact ⟨_, _, _, F.congr rfl (by simp [Cse.entered, hd]) rfl (by simp [Cse.entered, hd])
          (by simp [Cse.entered, hd])⟩
    · by_cases hd : d = s
      · subst hd
        intro hexec
        simp only [Cse.entered, Function.update_self] at hexec ⊢
        exact .inl ((Child.send_spec _ hrole).2 hexec)
      · exact (I.clear d).other (by simp [Cse.entered, hd]) rfl
  | receive s fails p act rest hrole hround =>
    obtain ⟨hpipe, rfl, rfl, rfl⟩ := Child.execute_some hround
    have hend : (x.child s).command.bytes[(x.pipe s.other).length]? = some 0 := by
      rcases I.clear s hrole with hclear | ⟨rfl, hnone⟩
      · obtain ⟨pending, unread, back, F⟩ := I.framed s.other
        obtain ⟨line, -, hline, ⟨-, hlen, -⟩, -⟩ := F.one hpipe
        rw [hclear, hline]
        apply Buffer.cleared_get
        omega
      · exact hturn rfl hnone
    refine ⟨fun d => ?_, fun d => ?_⟩
    · by_cases hd : d = s.other
      · subst hd
        obtain ⟨pending, unread, back, F⟩ := I.framed s.other
        exact ⟨_, _, _, F.receive hpipe hend _⟩
      · obtain ⟨pending, unread, back, F⟩ := I.framed d
        have hother : d.other ≠ s := fun h => hd (by rw [← h, Side.other_other])
        exact ⟨_, _, _, F.congr rfl rfl (by simp [Cse.received, hother]) (by simp [Cse.received, hd]) rfl⟩
    · by_cases hd : d = s
      · subst hd
        intro hexec
        simp only [Cse.received, Function.update_self] at hexec ⊢
        exact .inl ((Child.act_spec _ _ _ hrole).2 hexec)
      · exact (I.clear d).other (by simp [Cse.received, hd]) (by simp [Cse.received, hd])

end FrameInv

/-- **Command framing**, when every command is sent after the last one was read: each side acts on what the other
one sent, in its order, and on all of it when the pipe is empty. What a side sends are the lines typed on its
terminal. -/
theorem commands_framed (c e : Buffer) (x : Cse) (h : Trans.ReachIf Cse.step InTurn (Cse.init c e) x) (d : Side) :
    (x.sent d <+: x.typed d ∧ (x.tty d = [] → x.sent d = x.typed d)) ∧
      x.acted d.other <+: x.sent d ∧ (x.pipe d = [] → x.acted d.other = x.sent d) := by
  have I : FrameInv x := h.inv (.init c e) fun _ _ _ _ I hturn hs => I.step hturn hs
  obtain ⟨pending, unread, back, F⟩ := I.framed d
  refine ⟨⟨⟨unread, F.typed.symm⟩, fun htty => ?_⟩, ⟨pending, F.sent.symm⟩, fun hpipe => ?_⟩
  · have hunread : unread = [] := by
      cases hu : unread with
      | nil => rfl
      | cons line rest => exact absurd (F.tty.symm.trans htty) (by simp [hu])
    rw [F.typed, hunread, List.append_nil]
  · rw [F.sent, F.pending_nil hpipe, List.append_nil]

/-- Three commands in turn, the second one swaps the roles. -/
theorem commands_framed_swap : ∃ x : Cse,
    Trans.ReachIf Cse.step InTurn (Cse.init .cleared .cleared) x ∧
      x.acted .e = [ascii ['l', 's'], swaprole] ∧ x.acted .c = [ascii ['w']] ∧
      x.acted .e <+: x.sent .c ∧ x.acted .c <+: x.sent .e := by
  obtain ⟨x, hr, hx⟩ := Trans.exists_reachIf_of_run Cse.step InTurn (Cse.init .cleared .cleared)
    [.type .c (ascii ['l', 's']), .type .c swaprole, .enter .c, .receive .e false, .enter .c, .receive .e false,
      .type .e (ascii ['w']), .enter .e, .receive .c true]
    (fun x => decide (x.acted .e = [ascii ['l', 's'], swaprole] ∧ x.acted .c = [ascii ['w']])) (by decide +kernel)
  obtain ⟨he, hc⟩ := of_decide_eq_true hx
  exact ⟨x, hr, he, hc, (commands_framed .cleared .cleared x hr .c).2.1,
    (commands_framed .cleared .cleared x hr .e).2.1⟩

/-- Two commands sent before the first is read arrive as one. -/
theorem commands_coalesced : ∃ x : Cse,
    Trans.ReachIf Cse.step Typing (Cse.init .cleared .cleared) x ∧ x.tty .c = [] ∧ x.pipe .c = [] ∧
      x.sent .c = [ascii ['l', 's'], ascii ['w']] ∧ x.acted .e = [ascii ['l', 's', 'w']] := by
  obtain ⟨x, hr, hx⟩ := Trans.exists_reachIf_of_run Cse.step Typing (Cse.init .cleared .cleared)
    [.type .c (ascii ['l', 's']), .type .c (ascii ['w']), .enter .c, .enter .c, .receive .e false]
    (fun x => decide (x.tty .c = [] ∧ x.pipe .c = [] ∧ x.sent .c = [ascii ['l', 's'], ascii ['w']] ∧
      x.acted .e = [ascii ['l', 's', 'w']])) (by decide +kernel)
  exact ⟨x, hr, of_decide_eq_true hx⟩

/-! ## Roles -/

/-- Who reads the text `swaprole` reads it when that was the last command of the other side. -/
def Passed (x : Cse) : Move → Prop
  | .receive s _ =>
    ((x.child s).command.put ((x.pipe s.other).take 100)).str = swaprole → (x.sent s.other).getLast? = some swaprole
  | _ => True

instance (x : Cse) : ∀ m, Decidable (Passed x m)
  | .type _ _ => isTrue trivial
  | .enter _ => isTrue trivial
  | .receive s _ => inferInstanceAs (Decidable
      (((x.child s).command.put ((x.pipe s.other).take 100)).str = swaprole →
        (x.sent s.other).getLast? = some swaprole))

/-- `o` has the input role, or had it last. Nothing is under way to `o`, and while it has the role nothing is
under way from it behind a `swaprole`. -/
structure Holder (x : Cse) (o : Side) : Prop where
  other : (x.child o.other).role ≠ .input
  silent : x.pipe o.other = []
  given : (x.child o).role = .input → x.pipe o ≠ [] → (x.sent o).getLast? ≠ some swaprole
  noNul : 0 ∉ x.pipe o

namespace Holder

variable {o : Side}

theorem congr (H : Holder x o) (hchild : x'.child = x.child) (hpipe : x'.pipe = x.pipe) (hsent : x'.sent = x.sent) :
    Holder x' o where
  other := by rw [hchild]; exact H.other
  silent := by rw [hpipe]; exact H.silent
  given := by rw [hchild, hpipe, hsent]; exact H.given
  noNul := by rw [hpipe]; exact H.noNul

/-- The holder reads its terminal. -/
theorem enter (H : Holder x o) (hrole : (x.child o).role = .input) (b : Buffer) (rest : List UInt8) :
    Holder (x.entered o ((x.child o).send b) b.str rest) o where
  other := by simpa [Cse.entered, Side.other_ne] using H.other
  silent := by simpa [Cse.entered, Side.other_ne] using H.silent
  given := by
    simp only [Cse.entered, Function.update_self]
    intro hin hpipe
    split_ifs with hout
    · rw [hout, List.append_nil] at hpipe
      exact H.given hrole hpipe
    · simpa using (Child.send_spec _ hrole).1 hin
  noNul := by
    simp only [Cse.entered, Function.update_self]
    intro hmem
    rcases List.mem_append.1 hmem with hmem | hmem
    · exact H.noNul hmem
    · exact Buffer.nul_not_mem_str _ hmem

/-- The other side reads `swaprole`, which the holder sent last: it holds the role from now on. -/
theorem swap (H : Holder x o) (hpipe : x.pipe o ≠ []) (hlast : (x.sent o).getLast? = some swaprole)
    (hswap : ((x.child o.other).command.put ((x.pipe o).take 100)).str = swaprole) (p : Child) (act : List UInt8) :
    Holder (x.received o.other p act ((x.pipe o).drop 100)) o.other := by
  have hshort : (x.pipe o).length < 100 := by
    have hnul : 0 ∉ (x.pipe o).take 100 := fun hmem => H.noNul (List.mem_of_mem_take hmem)
    have hle := (Buffer.str_put_prefix (b := (x.child o.other).command) hnul (List.length_take_le 100 _)).length_le
    rw [hswap, List.length_take] at hle
    simp [swaprole, ascii] at hle
    omega
  refine ⟨?_, ?_, ?_, ?_⟩
  · rw [Side.other_other]
    intro hin
    refine H.given ?_ hpipe hlast
    simpa [Cse.received, (Side.other_ne o).symm] using hin
  · simp [Cse.received, List.drop_eq_nil_of_le (Nat.le_of_lt hshort)]
  · intro _ hne
    exact absurd (by simpa [Cse.received, Side.other_ne] using H.silent) hne
  · simp [Cse.received, Side.other_ne, H.silent]

/-- The other side reads something else. -/
theorem receive (H : Holder x o) (hpipe : x.pipe o ≠ []) {p : Child} (hp : p.role ≠ .input) (act : List UInt8) :
    Holder (x.received o.other p act ((x.pipe o).drop 100)) o where
  other := by simpa [Cse.received] using hp
  silent := by simpa [Cse.received, Side.other_ne] using H.silent
  given := by
    simp only [Cse.received, Side.other_other, Function.update_self]
    intro hin _
    rw [Function.update_of_ne (Side.other_ne o).symm] at hin
    exact H.given hin hpipe
  noNul := by
    simp only [Cse.received, Side.other_other, Function.update_self]
    exact fun hmem => H.noNul (List.mem_of_mem_drop hmem)

theorem step (H : Holder x o) (hpass : Passed x m) (hs : x.step m = some x') : ∃ o', Holder x' o' := by
  cases Cse.moved_of_step hs with
  | type s line => exact ⟨o, H.congr rfl rfl rfl⟩
  | enter s p out rest hrole hround =>
    obtain ⟨b, hget, rfl, rfl⟩ := Child.input_some hround
    have hsh : s = o := by
      by_contra hne
      exact H.other (Side.eq_other hne ▸ hrole)
    subst hsh
    exact ⟨s, H.enter hrole _ rest⟩
  | receive s fails p act rest hrole hround =>
    obtain ⟨hpipe, rfl, rfl, rfl⟩ := Child.execute_some hround
    have hsh : s = o.other := by
      by_contra hne
      have hs' : s = o := by rw [Side.eq_other hne, Side.other_other]
      exact hpipe (hs' ▸ H.silent)
    subst hsh
    rw [Side.other_other] at hpipe ⊢
    by_cases hswap : ((x.child o.other).command.put ((x.pipe o.other.other).take 100)).str = swaprole
    · have hlast := hpass hswap
      rw [Side.other_other] at hswap hlast
      exact ⟨o.other, H.swap hpipe hlast hswap _ _⟩
    · rw [Side.other_other] at hswap
      exact ⟨o, H.receive hpipe (fun hin => hswap ((Child.act_spec _ _ _ hrole).1 hin)) _⟩

theorem not_both (H : Holder x o) : ¬ ((x.child .c).role = .input ∧ (x.child .e).role = .input) := by
  rintro ⟨hc, he⟩
  cases o with
  | c => exact H.other he
  | e => exact H.other hc

end Holder

/-- **One side has the command-input role**, when `swaprole` is read only after it was the last command sent. -/
theorem one_input_role (c e : Buffer) (x : Cse) (h : Trans.ReachIf Cse.step Passed (Cse.init c e) x) :
    ¬ ((x.child .c).role = .input ∧ (x.child .e).role = .input) := by
  have H0 : Holder (Cse.init c e) .c :=
    ⟨by simp [Cse.init, Side.other], rfl, fun _ hne => absurd rfl hne, List.not_mem_nil⟩
  obtain ⟨_, H⟩ := h.inv (I := fun x => ∃ o, Holder x o) ⟨.c, H0⟩ fun _ _ _ _ ⟨_, H⟩ hpass hs => H.step hpass hs
  exact H.not_both

/-- The role goes over and comes back, although the commands before `swaprole` were read as one. -/
theorem one_input_role_back : ∃ x : Cse,
    Trans.ReachIf Cse.step Passed (Cse.init .cleared .cleared) x ∧ x.acted .e = [ascii ['l', 's', 'w'], swaprole] ∧
      x.acted .c = [swaprole] ∧ ¬ ((x.child .c).role = .input ∧ (x.child .e).role = .input) := by
  obtain ⟨x, hr, hx⟩ := Trans.exists_reachIf_of_run Cse.step Passed (Cse.init .cleared .cleared)
    [.type .c (ascii ['l', 's']), .type .c (ascii ['w']), .type .c swaprole, .type .e swaprole, .enter .c, .enter .c,
      .receive .e false, .enter .c, .receive .e false, .enter .e, .receive .c false]
    (fun x => decide (x.acted .e = [ascii ['l', 's', 'w'], swaprole] ∧ x.acted .c = [swaprole])) (by decide +kernel)
  obtain ⟨he, hc⟩ := of_decide_eq_true hx
  exact ⟨x, hr, he, hc, one_input_role .cleared .cleared x hr⟩

/-- Two commands read as one spell `swaprole`: it takes the role and the other side still has it. -/
theorem role_duplicated : ∃ x : Cse,
    Trans.ReachIf Cse.step Typing (Cse.init .cleared .cleared) x ∧
      (x.child .c).role = .input ∧ (x.child .e).role = .input := by
  obtain ⟨x, hr, hx⟩ := Trans.exists_reachIf_of_run Cse.step Typing (Cse.init .cleared .cleared)
    [.type .c (ascii ['s', 'w', 'a', 'p']), .type .c (ascii ['r', 'o', 'l', 'e']), .enter .c, .enter .c,
      .receive .e false]
    (fun x => decide ((x.child .c).role = .input ∧ (x.child .e).role = .input)) (by decide +kernel)
  exact ⟨x, hr, of_decide_eq_true hx⟩

end OsLab.A3
