import OsLab.Lib.CString

/-!
# The clock (A6/session.c:119-139)

| here | there |
| --- | --- |
| `clock`           | `hours` and `minutes` as they are printed, and which of the three `sprintf` prints them |
| `Clock.text`      | `"%02d:%02dpm"`, `"%02d:%02dam"` |
| `getTime`         | `get_time` |

`-current_time` overflows for the least `int` only. The two formulas for the minutes disagree on full hours before 9 am,
where the remainder is 0 and 60 is printed, and there are no days: before 1 am the hour is 0 or less, and from midnight on it
is still pm. `getTime_right_iff`: anywhere else the text is right.
-/

namespace OsLab.A6

open CString

structure Clock where
  hours : Int
  minutes : Int
  pm : Bool
deriving DecidableEq, Repr

/-- Division and remainder are those of C. -/
def clock (currentTime : Int) : Clock :=
  let hours := if currentTime < 0 then 8 - (-currentTime).tdiv 60 else 9 + currentTime.tdiv 60
  let minutes := if currentTime < 0 then 60 - (-currentTime).tmod 60 else currentTime.tmod 60
  if 12 < hours then ⟨hours - 12, minutes, true⟩ else ⟨hours, minutes, hours = 12⟩

/-- `%02d`; a sign fills the place of a digit. -/
def twoDigits (z : Int) : List Char := if (decimal z).length < 2 then '0' :: decimal z else decimal z

def Clock.text (c : Clock) : List Char :=
  twoDigits c.hours ++ ':' :: (twoDigits c.minutes ++ [if c.pm then 'p' else 'a', 'm'])

def getTime (currentTime : Int) : List Char := (clock currentTime).text

/-- The time that lies `t` minutes behind 9 am, which is minute 540 of the 1440 of a day. -/
def Clock.Right (t : Int) (c : Clock) : Prop :=
  1 ≤ c.hours ∧ c.hours ≤ 12 ∧ 0 ≤ c.minutes ∧ c.minutes ≤ 59 ∧
    (c.hours % 12 * 60 + c.minutes + if c.pm then 720 else 0) % 1440 = (540 + t) % 1440

/-! ## What can be read off the text -/

theorem unsignedValue_zero {s : List Char} : unsignedValue ('0' :: s) = unsignedValue s := by
  rw [unsignedValue, List.takeWhile_cons_of_pos (by decide), Nat.ofDigitChars_cons]
  rfl

/-- The number that has been printed with two digits or more. -/
theorem signedValue_twoDigits (z : Int) {rest : List Char} (hrest : ∀ c ∈ rest.head?, ¬ c.isDigit) :
    signedValue ((twoDigits z ++ rest).dropWhile isSpace) = z := by
  unfold twoDigits
  split
  · next hshort =>
    cases z with
    | ofNat n =>
      show signedValue (('0' :: (Nat.toDigits 10 n ++ rest)).dropWhile isSpace) = n
      rw [List.dropWhile_cons_of_neg (by decide), signedValue, if_neg (by decide), if_neg (by decide),
        unsignedValue_zero, unsignedValue_toDigits n hrest]
    | negSucc n =>
      have hpos := List.length_pos_iff.2 (Nat.toDigits_ne_nil (n := n + 1) (b := 10))
      rw [decimal, List.length_cons] at hshort
      omega
  · exact signedValue_decimal z hrest

theorem text_injective : Function.Injective Clock.text := by
  rintro ⟨h, m, p⟩ ⟨h', m', p'⟩ heq
  unfold Clock.text at heq
  dsimp only at heq
  have hcolon : ∀ s : List Char, ∀ c ∈ (':' :: s).head?, ¬ c.isDigit := by
    intro s c hc
    cases hc
    decide
  have hletter : ∀ p : Bool, ∀ c ∈ [if p then 'p' else 'a', 'm'].head?, ¬ c.isDigit := by
    intro p c hc
    cases hc
    cases p <;> decide
  have hhours : h = h' := by
    have hvalue := signedValue_twoDigits h (hcolon (twoDigits m ++ [if p then 'p' else 'a', 'm']))
    rw [heq, signedValue_twoDigits h' (hcolon _)] at hvalue
    exact hvalue.symm
  subst hhours
  have heq := (List.cons.inj (List.append_cancel_left heq)).2
  have hminutes : m = m' := by
    have hvalue := signedValue_twoDigits m (hletter p)
    rw [heq, signedValue_twoDigits m' (hletter p')] at hvalue
    exact hvalue.symm
  subst hminutes
  have heq := (List.cons.inj (List.append_cancel_left heq)).1
  have hsuffix : ∀ p p' : Bool, (if p then 'p' else 'a') = (if p' then 'p' else 'a') → p = p' := by decide
  rw [hsuffix p p' heq]

/-! ## When it is right -/

theorem clock_right_iff (t : Int) : (clock t).Right t ↔ -480 < t ∧ t < 900 ∧ (t < 0 → ¬ 60 ∣ t) := by
  have hneg : t < 0 → (-t).tdiv 60 = (-t) / 60 ∧ (-t).tmod 60 = (-t) % 60 := fun h =>
    ⟨Int.tdiv_eq_ediv_of_nonneg (by omega), Int.tmod_eq_emod_of_nonneg (by omega)⟩
  have hpos : ¬ t < 0 → t.tdiv 60 = t / 60 ∧ t.tmod 60 = t % 60 := fun h =>
    ⟨Int.tdiv_eq_ediv_of_nonneg (by omega), Int.tmod_eq_emod_of_nonneg (by omega)⟩
  unfold clock Clock.Right
  dsimp only
  by_cases ht : t < 0
  · obtain ⟨hdiv, hmod⟩ := hneg ht
    simp only [if_pos ht, hdiv, hmod]
    rw [if_neg (by omega)]
    dsimp only
    rw [if_neg (by simp; omega)]
    omega
  · obtain ⟨hdiv, hmod⟩ := hpos ht
    simp only [if_neg ht, hdiv, hmod]
    split
    · dsimp only
      rw [if_pos rfl]
      omega
    · dsimp only
      simp only [decide_eq_true_eq]
      split <;> omega

/-- **When the clock shows the right time**: on the day of the session from 1 am to midnight, full hours before 9 am
excepted. -/
theorem getTime_right_iff (t : Int) :
    (∃ c : Clock, getTime t = c.text ∧ c.Right t) ↔ -480 < t ∧ t < 900 ∧ (t < 0 → ¬ 60 ∣ t) := by
  rw [← clock_right_iff]
  constructor
  · rintro ⟨c, htext, hc⟩
    rw [text_injective htext]
    exact hc
  · intro h
    exact ⟨clock t, rfl, h⟩

/-- At 8 am the clock shows 07:60am. -/
theorem eight_o_clock : getTime (-60) = "07:60am".toList ∧ ¬ ∀ t, ∃ c : Clock, getTime t = c.text ∧ c.Right t := by
  have hclock : clock (-60) = ⟨7, 60, false⟩ := by decide
  refine ⟨by decide, fun h => ?_⟩
  obtain ⟨c, htext, hc⟩ := h (-60)
  rw [← text_injective htext, hclock] at hc
  exact absurd hc.2.2.2.1 (by decide)

end OsLab.A6
