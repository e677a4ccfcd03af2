import OsLab.Lib.CString

/-!
# Scanning a stream of characters

A scanner takes characters from the front of a stream and leaves the rest. A `Local` one looks no further than it
takes: unless it comes to the end it leaves the same, whatever stands behind (`Local.append_iff`). `scanInt` is the
conversion `%d` of `fscanf`, and `scanInt_decimal` its round trip. A text that `Spells` numbers is what `printf` makes
of them with blanks in between, and what `scanInto` takes them from one by one.
-/

namespace Scan

open CString (isSpace isDigit_of_mem isDigit_or_of_mem decimal atoi)

variable {α : Type*} {f g : List α → List α} {p : α → Bool} {s u w m : List α}

/-- `f` is what a scanner leaves. -/
structure Local (f : List α → List α) : Prop where
  nil : f [] = []
  keep : ∀ {u m}, f u ≠ [] → f (u ++ m) = f u ++ m
  past : ∀ {u m}, f u = [] → f (u ++ m) <:+ m

namespace Local

theorem suffix (hf : Local f) (s : List α) : f s <:+ s := hf.past (u := []) hf.nil

/-- **A scanner that does not come to the end** does not depend on what stands behind. -/
theorem append_iff (hf : Local f) (hw : w ≠ []) : f (u ++ m) = w ++ m ↔ f u = w := by
  constructor
  · intro h
    by_cases hu : f u = []
    · have hlen := (hf.past (m := m) hu).length_le
      have hpos := List.length_pos_of_ne_nil hw
      rw [h, List.length_append] at hlen
      omega
    · rw [hf.keep hu] at h
      exact List.append_cancel_right h
  · rintro rfl
    exact hf.keep hw

theorem comp (hf : Local f) (hg : Local g) : Local fun s => g (f s) where
  nil := by rw [hf.nil, hg.nil]
  keep h := by
    rw [hf.keep fun hu => h (by rw [hu, hg.nil]), hg.keep h]
  past {u m} h := by
    by_cases hu : f u = []
    · exact (hg.suffix _).trans (hf.past hu)
    · rw [hf.keep hu]
      exact hg.past h

end Local

theorem local_dropWhile (p : α → Bool) : Local (List.dropWhile p) where
  nil := rfl
  keep {u m} h := by rw [List.dropWhile_append, if_neg (by simpa using h)]
  past {u m} h := by
    rw [List.dropWhile_append, if_pos (by simpa using h)]
    exact List.dropWhile_suffix p

theorem local_tail : Local (List.tail (α := α)) where
  nil := rfl
  keep {u m} h := by
    cases u with
    | nil => exact absurd rfl h
    | cons c cs => rfl
  past {u m} h := by
    cases u with
    | nil => exact List.tail_suffix m
    | cons c cs =>
      obtain rfl : cs = [] := h
      exact List.suffix_refl m

/-- `f`, if the next character is one of `p`. -/
def whenNext (p : α → Bool) (f : List α → List α) (s : List α) : List α := if s.head?.any p then f s else s

theorem whenNext_cons (p : α → Bool) (f : List α → List α) (c : α) (cs : List α) :
    whenNext p f (c :: cs) = if p c then f (c :: cs) else c :: cs := rfl

theorem local_whenNext (hf : Local f) (p : α → Bool) : Local (whenNext p f) where
  nil := rfl
  keep {u m} h := by
    cases u with
    | nil => exact absurd rfl h
    | cons c cs =>
      rw [whenNext_cons] at h
      rw [List.cons_append, whenNext_cons, whenNext_cons]
      split_ifs with hc
      · rw [if_pos hc] at h
        exact hf.keep h
      · rfl
  past {u m} h := by
    cases u with
    | nil =>
      rw [List.nil_append, whenNext]
      split_ifs
      · exact hf.suffix m
      · exact List.suffix_refl m
    | cons c cs =>
      rw [whenNext_cons] at h
      rw [List.cons_append, whenNext_cons]
      split_ifs at h with hc
      rw [if_pos hc]
      exact hf.past h

/-! ## Numbers -/

def isSign (c : Char) : Bool := c = '+' ∨ c = '-'

/-- Blanks, which may be newlines, and a sign are taken even when no digit stands behind them. -/
def beforeDigits (s : List Char) : List Char := whenNext isSign List.tail (s.dropWhile isSpace)

/-- `%d`: the number, if there is one, and what is left. -/
def scanInt (s : List Char) : Option ℤ × List Char :=
  (if (beforeDigits s).head?.any Char.isDigit then some (atoi s) else none, (beforeDigits s).dropWhile Char.isDigit)

theorem scanInt_of_digit {s : List Char} (h : (beforeDigits s).head?.any Char.isDigit) :
    scanInt s = (some (atoi s), (beforeDigits s).dropWhile Char.isDigit) := by
  rw [scanInt, if_pos h]

theorem scanInt_of_no_digit {s : List Char} (h : ¬ (beforeDigits s).head?.any Char.isDigit) :
    scanInt s = (none, beforeDigits s) := by
  rw [scanInt, if_neg h]
  cases hs : beforeDigits s with
  | nil => rfl
  | cons c cs =>
    rw [hs, List.head?_cons, Option.any_some] at h
    rw [List.dropWhile_cons_of_neg h]

theorem local_beforeDigits : Local beforeDigits := (local_dropWhile isSpace).comp (local_whenNext local_tail isSign)

theorem local_scanInt : Local fun s => (scanInt s).2 := local_beforeDigits.comp (local_dropWhile Char.isDigit)

theorem isSign_of_isDigit {c : Char} (h : c.isDigit) : isSign c = false := by
  refine decide_eq_false ?_
  rintro (rfl | rfl)
  · exact absurd h (by decide)
  · exact absurd h (by decide)

theorem beforeDigits_toDigits (n : ℕ) (rest : List Char) :
    beforeDigits (Nat.toDigits 10 n ++ rest) = Nat.toDigits 10 n ++ rest := by
  obtain ⟨d, ds, hds⟩ := List.exists_cons_of_ne_nil (Nat.toDigits_ne_nil (n := n) (b := 10))
  have hd : d.isDigit := isDigit_of_mem (n := n) (by rw [hds]; exact List.mem_cons_self)
  rw [hds, List.cons_append, beforeDigits, List.dropWhile_cons_of_neg (by rw [CString.isSpace_of_isDigit hd]; decide),
    whenNext, if_neg (by simp [isSign_of_isDigit hd])]

/-- The digits of a number are what `%d` reads. -/
theorem beforeDigits_decimal (n : ℤ) (rest : List Char) :
    beforeDigits (decimal n ++ rest) = Nat.toDigits 10 n.natAbs ++ rest := by
  cases n with
  | ofNat n => exact beforeDigits_toDigits n rest
  | negSucc n => rfl

/-- **A number is read back** by `%d`, and what stands behind it is left. -/
theorem scanInt_decimal {n : ℤ} (hlow : -2 ^ 31 ≤ n) (hhigh : n < 2 ^ 31) {rest : List Char}
    (hrest : ∀ c ∈ rest.head?, ¬ c.isDigit) : scanInt (decimal n ++ rest) = (some n, rest) := by
  obtain ⟨d, ds, hds⟩ := List.exists_cons_of_ne_nil (Nat.toDigits_ne_nil (n := n.natAbs) (b := 10))
  have hd : d.isDigit := isDigit_of_mem (n := n.natAbs) (by rw [hds]; exact List.mem_cons_self)
  have hstop : rest.dropWhile Char.isDigit = rest := by
    cases rest with
    | nil => rfl
    | cons c cs => rw [List.dropWhile_cons_of_neg (hrest c rfl)]
  rw [scanInt, CString.atoi_decimal hlow hhigh hrest, beforeDigits_decimal,
    List.dropWhile_append_of_pos fun c hc => isDigit_of_mem hc, hstop, if_pos (by simp [hds, hd])]

/-- Blanks before a number do not matter. -/
theorem scanInt_cons_space {c : Char} (hc : isSpace c) (s : List Char) : scanInt (c :: s) = scanInt s := by
  have hdrop : (c :: s).dropWhile isSpace = s.dropWhile isSpace := List.dropWhile_cons_of_pos hc
  rw [scanInt, scanInt, beforeDigits, beforeDigits, atoi, atoi, CString.strtol, CString.strtol, hdrop]

/-- The argument of `%d` keeps its value when no number is read. -/
def scanInto (old : ℤ) (s : List Char) : ℤ × List Char := ((scanInt s).1.getD old, (scanInt s).2)

/-! ## A text of numbers -/

/-- The numbers stand in the text one after the other, each with a blank behind it. -/
inductive Spells : List ℤ → List Char → Prop
  | nil : Spells [] []
  | blank {xs s c} : isSpace c → Spells xs s → Spells xs (c :: s)
  | number {xs s c x} : -2 ^ 31 ≤ x → x < 2 ^ 31 → isSpace c → Spells xs s → Spells (x :: xs) (decimal x ++ c :: s)

namespace Spells

variable {xs ys : List ℤ} {s t : List Char} {x : ℤ}

theorem append (h : Spells xs s) (h' : Spells ys t) : Spells (xs ++ ys) (s ++ t) := by
  induction h with
  | nil => exact h'
  | blank hc _ ih => exact ih.blank hc
  | number hlow hhigh hc _ ih =>
    rw [List.append_assoc]
    exact ih.number hlow hhigh hc

theorem flatMap {ι : Type*} {is : List ι} {f : ι → List ℤ} {g : ι → List Char} (h : ∀ i ∈ is, Spells (f i) (g i)) :
    Spells (is.flatMap f) (is.flatMap g) := by
  induction is with
  | nil => exact nil
  | cons i is ih =>
    rw [List.flatMap_cons, List.flatMap_cons]
    exact (h i List.mem_cons_self).append (ih fun j hj => h j (List.mem_cons_of_mem i hj))

/-- **The first number is read**, and the others are left. -/
theorem scanInt (h : Spells (x :: xs) s) : ∃ rest, scanInt s = (some x, rest) ∧ Spells xs rest := by
  generalize hys : x :: xs = ys at h
  induction h with
  | nil => cases hys
  | @blank _ s c hc _ ih =>
    rw [scanInt_cons_space hc]
    exact ih hys
  | @number _ s c y hlow hhigh hc hspells =>
    obtain ⟨rfl, rfl⟩ := List.cons.inj hys
    have hstop : ∀ d ∈ (c :: s).head?, ¬ d.isDigit := by
      rintro d ⟨⟩ hd
      exact absurd hc (by simp [CString.isSpace_of_isDigit hd])
    exact ⟨c :: s, scanInt_decimal hlow hhigh hstop, hspells.blank hc⟩

theorem scanInto (h : Spells (x :: xs) s) (old : ℤ) : ∃ rest, scanInto old s = (x, rest) ∧ Spells xs rest := by
  obtain ⟨rest, hrest, hspells⟩ := h.scanInt
  refine ⟨rest, ?_, hspells⟩
  rw [Scan.scanInto, hrest]
  rfl

end Spells

end Scan
