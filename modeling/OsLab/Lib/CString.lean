import Mathlib.Algebra.Order.Ring.Int
import Mathlib.Algebra.Order.Ring.Nat
import Mathlib.Data.List.Basic

/-!
# C strings

A buffer is a list of characters; the string at a position of it goes up to the next `nul`. `strtol`, `atoi` and
`decimal` (the conversion `%d`) are those of the C library for a 64-bit `long` and a 32-bit `int`, and `strtok` is the
one of glibc with the pointer it keeps between calls as an argument and a result.

`atoi_decimal` is the round trip of numbers. `strtok_joined` and `strtok_end` are the rules for taking apart a string
of words that a separator joins.
-/

namespace CString

/-- `'\0'`. -/
def nul : Char := Char.ofNat 0

/-- The string at position `p`. -/
def str (b : List Char) (p : ℕ) : List Char := (b.drop p).takeWhile (· ≠ nul)

/-! ## Numbers -/

def isSpace (c : Char) : Bool := c.toNat = 32 ∨ 9 ≤ c.toNat ∧ c.toNat ≤ 13

/-- The digits a string starts with. -/
def unsignedValue (s : List Char) : ℕ := Nat.ofDigitChars 10 (s.takeWhile Char.isDigit) 0

/-- A sign, if there is one, and digits. -/
def signedValue (s : List Char) : ℤ :=
  match s with
  | [] => 0
  | c :: cs =>
    if c = '-' then -unsignedValue cs
    else if c = '+' then unsignedValue cs
    else unsignedValue (c :: cs)

/-- With base 10; values beyond the range of `long` stop at its ends. -/
def strtol (s : List Char) : ℤ := max (-2 ^ 63) (min (2 ^ 63 - 1) (signedValue (s.dropWhile isSpace)))

/-- `strtol` converted to `int`. -/
def atoi (s : List Char) : ℤ := (strtol s).bmod (2 ^ 32)

/-- `%d`. -/
def decimal : ℤ → List Char
  | .ofNat n => Nat.toDigits 10 n
  | .negSucc n => '-' :: Nat.toDigits 10 (n + 1)

theorem isDigit_of_mem {c : Char} {n : ℕ} (h : c ∈ Nat.toDigits 10 n) : c.isDigit :=
  Nat.isDigit_of_mem_toDigits (by decide) (by decide) h

theorem isDigit_or_of_mem {c : Char} {n : ℤ} (h : c ∈ decimal n) : c = '-' ∨ c.isDigit := by
  cases n with
  | ofNat n => exact .inr (isDigit_of_mem h)
  | negSucc n =>
    rcases List.mem_cons.1 h with h | h
    · exact .inl h
    · exact .inr (isDigit_of_mem h)

theorem decimal_ne_nil (n : ℤ) : decimal n ≠ [] := by
  cases n with
  | ofNat n => exact Nat.toDigits_ne_nil
  | negSucc n => exact List.cons_ne_nil _ _

/-- Digits are read back up to the first other character. -/
theorem unsignedValue_toDigits (n : ℕ) {rest : List Char} (hrest : ∀ c ∈ rest.head?, ¬ c.isDigit) :
    unsignedValue (Nat.toDigits 10 n ++ rest) = n := by
  have hstop : rest.takeWhile Char.isDigit = [] := by
    cases rest with
    | nil => rfl
    | cons c cs => rw [List.takeWhile_cons_of_neg (hrest c rfl)]
  rw [unsignedValue, List.takeWhile_append_of_pos fun c hc => isDigit_of_mem hc, hstop, List.append_nil]
  exact Nat.ofDigitChars_ten_toDigits

theorem isSpace_of_isDigit {c : Char} (h : c.isDigit) : isSpace c = false := by
  have hlow : 48 ≤ c.toNat := by
    have h := (Bool.and_eq_true_iff.1 h).1
    exact UInt32.le_iff_toNat_le.1 (of_decide_eq_true h)
  exact decide_eq_false (by omega)

/-- Neither a blank nor a sign stands before the digits. -/
theorem signedValue_toDigits (n : ℕ) {rest : List Char} (hrest : ∀ c ∈ rest.head?, ¬ c.isDigit) :
    signedValue ((Nat.toDigits 10 n ++ rest).dropWhile isSpace) = n := by
  have hvalue := unsignedValue_toDigits n hrest
  obtain ⟨d, ds, hds⟩ := List.exists_cons_of_ne_nil (Nat.toDigits_ne_nil (n := n) (b := 10))
  have hd : d.isDigit := isDigit_of_mem (n := n) (by rw [hds]; exact List.mem_cons_self)
  have hminus : d ≠ '-' := by rintro rfl; exact absurd hd (by decide)
  have hplus : d ≠ '+' := by rintro rfl; exact absurd hd (by decide)
  rw [hds, List.cons_append] at hvalue ⊢
  rw [List.dropWhile_cons_of_neg (by rw [isSpace_of_isDigit hd]; decide), signedValue, if_neg hminus, if_neg hplus,
    hvalue]

theorem signedValue_decimal (n : ℤ) {rest : List Char} (hrest : ∀ c ∈ rest.head?, ¬ c.isDigit) :
    signedValue ((decimal n ++ rest).dropWhile isSpace) = n := by
  cases n with
  | ofNat n => exact signedValue_toDigits n hrest
  | negSucc n =>
    show signedValue ('-' :: (Nat.toDigits 10 (n + 1) ++ rest)) = _
    rw [signedValue, if_pos rfl, unsignedValue_toDigits _ hrest]
    rfl

/-- **A number is read back**, whatever stands behind it, as long as it is no digit. -/
theorem atoi_decimal {n : ℤ} (hlow : -2 ^ 31 ≤ n) (hhigh : n < 2 ^ 31) {rest : List Char}
    (hrest : ∀ c ∈ rest.head?, ¬ c.isDigit) : atoi (decimal n ++ rest) = n := by
  rw [atoi, strtol, signedValue_decimal n hrest, Int.bmod]
  split <;> omega

theorem atoi_decimal_end {n : ℤ} (hlow : -2 ^ 31 ≤ n) (hhigh : n < 2 ^ 31) : atoi (decimal n) = n := by
  have h : atoi (decimal n ++ []) = n := atoi_decimal hlow hhigh (by simp)
  rwa [List.append_nil] at h

/-! ## Taking a string apart -/

/-- `strtok` from the pointer `p`, in the first call the start of the string: the word, the buffer with its end
marked, and the pointer for the next call. -/
def strtok (delim : Char) (b : List Char) (p : ℕ) : Option ℕ × List Char × ℕ :=
  let t := p + ((b.drop p).takeWhile (· = delim)).length
  if b.getD t nul = nul then (none, b, t)
  else
    let e := t + ((b.drop t).takeWhile fun c => c ≠ delim ∧ c ≠ nul).length
    if b.getD e nul = nul then (some t, b, e) else (some t, b.set e nul, e + 1)

/-- Words with a separator between them. -/
def joined (delim : Char) : List (List Char) → List Char
  | [] => []
  | w :: ws => w ++ ws.flatMap (delim :: ·)

variable {delim : Char} {b w rest : List Char} {ws : List (List Char)} {p : ℕ}

/-- A separator behind each word but the last. -/
theorem length_joined (hne : ws ≠ []) : (joined delim ws).length + 1 = (ws.map fun w => w.length + 1).sum := by
  obtain ⟨w, ws, rfl⟩ := List.exists_cons_of_ne_nil hne
  have hrest : ∀ vs : List (List Char), (vs.flatMap (delim :: ·)).length = (vs.map fun v => v.length + 1).sum := by
    intro vs
    rw [List.length_flatMap]
    rfl
  rw [joined, List.length_append, hrest, List.map_cons, List.sum_cons]
  omega

theorem getD_of_drop {d : Char} {cs : List Char} (h : b.drop p = w ++ d :: cs) : b.getD (p + w.length) nul = d := by
  have hget : (b.drop p)[w.length]? = some d := by
    rw [h, List.getElem?_append_right (Nat.le_refl _), Nat.sub_self]
    rfl
  rw [List.getElem?_drop] at hget
  rw [List.getD_eq_getElem?_getD, hget, Option.getD_some]

theorem str_of_drop {cs : List Char} (h : b.drop p = w ++ nul :: cs) (hw : ∀ c ∈ w, c ≠ nul) : str b p = w := by
  rw [str, h, List.takeWhile_append_of_pos fun c hc => decide_eq_true (hw c hc),
    List.takeWhile_cons_of_neg (by simp), List.append_nil]

/-- A word that is there is found, and ends where the first other character is. -/
theorem strtok_word {d : Char} {cs : List Char} (h : b.drop p = w ++ d :: cs) (hne : w ≠ [])
    (hw : ∀ c ∈ w, c ≠ delim ∧ c ≠ nul) (hd : d = delim ∨ d = nul) :
    strtok delim b p =
      if d = nul then (some p, b, p + w.length) else (some p, b.set (p + w.length) nul, p + w.length + 1) := by
  obtain ⟨c, w', rfl⟩ := List.exists_cons_of_ne_nil hne
  have hc := hw c List.mem_cons_self
  have hskip : ((b.drop p).takeWhile (· = delim)).length = 0 := by
    rw [h, List.cons_append, List.takeWhile_cons_of_neg (by simpa using hc.1), List.length_nil]
  have hstart : b.getD p nul = c := getD_of_drop (w := []) (by rw [h]; rfl)
  have hword : (b.drop p).takeWhile (fun c => decide (c ≠ delim ∧ c ≠ nul)) = c :: w' := by
    rw [h, List.takeWhile_append_of_pos fun c hc => decide_eq_true (hw c hc),
      List.takeWhile_cons_of_neg (by rcases hd with rfl | rfl <;> simp), List.append_nil]
  unfold strtok
  dsimp only
  rw [hskip, Nat.add_zero, hstart, if_neg hc.2, hword, getD_of_drop h]

/-- **The next word** of a joined string is found, and what is left is the joined string of the others. -/
theorem strtok_joined (h : b.drop p = joined delim (w :: ws) ++ nul :: rest) (hdelim : delim ≠ nul) (hne : w ≠ [])
    (hw : ∀ c ∈ w, c ≠ delim ∧ c ≠ nul) :
    ∃ b' p', strtok delim b p = (some p, b', p') ∧ str b' p = w ∧ b'.drop p' = joined delim ws ++ nul :: rest := by
  cases ws with
  | nil =>
    have hdrop : b.drop p = w ++ nul :: rest := by
      rw [h]
      simp [joined]
    refine ⟨b, p + w.length, ?_, str_of_drop hdrop fun c hc => (hw c hc).2, ?_⟩
    · rw [strtok_word hdrop hne hw (.inr rfl), if_pos rfl]
    · rw [← List.drop_drop, hdrop, List.drop_left]
      rfl
  | cons v vs =>
    have hdrop : b.drop p = w ++ delim :: (joined delim (v :: vs) ++ nul :: rest) := by
      rw [h]
      simp [joined]
    have hset : (b.set (p + w.length) nul).drop p = w ++ nul :: (joined delim (v :: vs) ++ nul :: rest) := by
      rw [List.drop_set, if_neg (by omega), Nat.add_sub_cancel_left, hdrop, List.set_append_right _ _ (Nat.le_refl _),
        Nat.sub_self]
      rfl
    refine ⟨b.set (p + w.length) nul, p + w.length + 1, ?_, str_of_drop hset fun c hc => (hw c hc).2, ?_⟩
    · rw [strtok_word hdrop hne hw (.inl rfl), if_neg hdelim]
    · rw [Nat.add_assoc, ← List.drop_drop, hset, ← List.drop_drop, List.drop_left]
      rfl

theorem strtok_end (h : b.drop p = nul :: rest) (hdelim : delim ≠ nul) : strtok delim b p = (none, b, p) := by
  have hskip : ((b.drop p).takeWhile (· = delim)).length = 0 := by
    rw [h, List.takeWhile_cons_of_neg (by simpa using hdelim.symm), List.length_nil]
  have hstart : b.getD p nul = nul := getD_of_drop (w := []) (by rw [h]; rfl)
  unfold strtok
  dsimp only
  rw [hskip, Nat.add_zero, if_pos hstart]

end CString
