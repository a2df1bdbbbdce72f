import Mathlib.Algebra.Order.Round
import Mathlib.Data.Rat.Floor
import Mathlib.Tactic.Linarith
/-!
# Rounding to a nearest integer

Where a tie goes differs from one language to the next, so it is left open:
`Nearest` asks only for a nearest integer, which already makes rounding
monotone, and exact on integers.
-/

namespace Rounding

structure Nearest where
  toInt : ℚ → ℤ
  near : ∀ x, |(toInt x : ℚ) - x| ≤ 1 / 2

namespace Nearest

variable (r : Nearest)

theorem le_add_half (x : ℚ) : (r.toInt x : ℚ) ≤ x + 1 / 2 := by
  have := (abs_le.1 (r.near x)).2
  linarith

theorem sub_half_le (x : ℚ) : x - 1 / 2 ≤ (r.toInt x : ℚ) := by
  have := (abs_le.1 (r.near x)).1
  linarith

theorem mono {x y : ℚ} (h : x ≤ y) : r.toInt x ≤ r.toInt y := by
  rcases eq_or_lt_of_le h with rfl | hlt
  · exact le_refl _
  · -- the integer of `x` is less than 1 above that of `y`
    have hx := r.le_add_half x
    have hy := r.sub_half_le y
    have hcast : (r.toInt x : ℚ) < (r.toInt y : ℚ) + 1 := by linarith
    exact Int.lt_add_one_iff.1 (by exact_mod_cast hcast)

theorem toInt_intCast (n : ℤ) : r.toInt n = n := by
  have hle := r.le_add_half n
  have hge := r.sub_half_le n
  have h1 : (r.toInt n : ℚ) < (n : ℚ) + 1 := by linarith
  have h2 : (n : ℚ) < (r.toInt n : ℚ) + 1 := by linarith
  exact le_antisymm (Int.lt_add_one_iff.1 (by exact_mod_cast h1)) (Int.lt_add_one_iff.1 (by exact_mod_cast h2))

theorem le_toInt {n : ℤ} {x : ℚ} (h : (n : ℚ) ≤ x) : n ≤ r.toInt x := by
  rw [← r.toInt_intCast n]
  exact r.mono h

theorem toInt_le {n : ℤ} {x : ℚ} (h : x ≤ (n : ℚ)) : r.toInt x ≤ n := by
  rw [← r.toInt_intCast n]
  exact r.mono h

/-- Rounding moves two numbers at most 1 further apart. -/
theorem toInt_le_add {n : ℤ} {x y : ℚ} (h : y + 1 ≤ x + n) : r.toInt y ≤ r.toInt x + n := by
  have hy := r.le_add_half y
  have hx := r.sub_half_le x
  have hcast : (r.toInt y : ℚ) ≤ (r.toInt x : ℚ) + n := by linarith
  exact_mod_cast hcast

end Nearest

/-! ## Ties -/

def halfAway (x : ℚ) : ℤ := if 0 ≤ x then round x else -round (-x)

theorem halfAway_near (x : ℚ) : |(halfAway x : ℚ) - x| ≤ 1 / 2 := by
  unfold halfAway
  split
  · rw [abs_sub_comm]
    exact abs_sub_round x
  · have h := abs_sub_round (-x)
    rwa [Int.cast_neg, ← neg_sub_comm]

def halfEven (x : ℚ) : ℤ := if x - ⌊x⌋ = 1 / 2 ∧ ⌊x⌋ % 2 = 0 then ⌊x⌋ else round x

theorem halfEven_near (x : ℚ) : |(halfEven x : ℚ) - x| ≤ 1 / 2 := by
  unfold halfEven
  split
  next h =>
    rw [abs_sub_comm, h.1]
    norm_num
  next =>
    rw [abs_sub_comm]
    exact abs_sub_round x

/-- Ties go away from zero. -/
def Nearest.away : Nearest := ⟨halfAway, halfAway_near⟩

/-- Ties go to the even neighbour. -/
def Nearest.even : Nearest := ⟨halfEven, halfEven_near⟩

end Rounding
