import Mathlib.Algebra.Group.Nat.Defs
import Mathlib.Data.Nat.Notation

/-!
# 32-bit integers that wrap

`int32 x` is what a 32-bit two's complement variable holds when `x` is stored in it.
-/

def int32 (x : Int) : Int := x.bmod (2 ^ 32)

/-- `INT_MAX`. -/
def intMax : Int := 2147483647

/-- What fits is stored as it is. -/
theorem int32_eq {x : Int} (h0 : 0 ≤ x) (h : x ≤ intMax) : int32 x = x := by
  unfold intMax at h
  simp only [int32, Int.bmod]
  split <;> omega

theorem int32_le {x : Int} (h : 0 ≤ x) : int32 x ≤ x := by
  have hm : 2 ^ 32 = 4294967296 := rfl
  simp only [int32, Int.bmod, hm]
  split <;> omega
