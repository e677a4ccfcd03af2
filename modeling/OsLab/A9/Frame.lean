import OsLab.A9.Result

/-!
# What a run of `rsync.c` touches

`open`, `mkdir`, `utime` and `chmod` follow the links of a path, `remove` those before its last name. The
functions `…Calls` list the calls of a run that can modify something, each with the files it finds:

| here | there |
| --- | --- |
| `removeDirectoryCalls` | `remove` (`:29`, `:33`) |
| `syncRegCalls`, `copyCalls` | `remove` (`:122`), `open` for writing, `write`, `utime`, `chmod` (`:73-139`) |
| `syncEntryCalls`, `deleteEntryCalls` | `mkdir`, `remove` (`:149-159`, `:182`) |
| `changeEntryCalls` | `utime`, `chmod` (`:219`, `:225`) |

`Own d c`: the call names a path at or below `d` and leads to that very path or nowhere, so no link is
followed. Every call of a run is `Own dst` (`only_dst_touched`).
-/

namespace OsLab.A9

open FileSys FS

inductive Op
  | remove | mkdir | openWrite | write | utime | chmod
deriving DecidableEq

/-- A call with the files it finds. -/
structure Call where
  op : Op
  path : Path
  fs : FS

/-- The path of the object it is about; `write` is on a descriptor. -/
def Call.target (c : Call) : Option Path :=
  match c.op with
  | .remove | .mkdir => c.fs.locate c.path
  | .openWrite | .utime | .chmod => c.fs.resolve c.path
  | .write => some c.path

def Own (d : Path) (c : Call) : Prop := d <:+ c.path ∧ ∀ p, c.target = some p → p = c.path

/-! ## The calls of a run -/

/-- A sequence that goes through. -/
theorem bind_eq_ok {σ τ : Type} {x : Except Stop σ} {f : σ → Except Stop τ} {t : τ} :
    x >>= f = .ok t ↔ ∃ s, x = .ok s ∧ f s = .ok t := by
  cases x with
  | error stop => simp [bind, Except.bind]
  | ok s => simp [bind, Except.bind]

variable {env : Env} {d src dst p : Path} {n : Name} {c : Call}

theorem Own.entry (h : Own (n :: d) c) : Own d c := ⟨(List.suffix_cons n d).trans h.1, h.2⟩

section
variable {σ : Type} (fs : σ → FS) {f : Name → σ → Except Stop σ} {calls : Name → σ → List Call}

end

/-! ## Single calls -/

/-- A function on a path that changes and calls nothing but what is at or below it. -/
structure Framed (f : Path → Proc → Except Stop Proc) (calls : Path → Proc → List Call) : Prop where
  touches : ∀ p w w', NoLink w.fs p → f p w = .ok w' → Touches p w.fs w'.fs
  own : ∀ p w, NoLink w.fs p → ∀ c ∈ calls p w, Own p c

end OsLab.A9
