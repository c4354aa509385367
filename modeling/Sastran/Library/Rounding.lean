/-
Rounding to the nearest integer, and the uniform quantization of an interval on top of it.

* `roundAway` - to nearest, ties away from zero: monotone, the identity on integers, off by half at
  most (`roundAway_mono`, `roundAway_natCast`, `abs_roundAway_sub_le`).
* `level`, `restore` - the nearest of equally spaced levels of an interval, and the value of a level.
  `level_mono`, `level_of_le` and `level_of_ge` describe the levels, `abs_restore_level_sub_le` bounds
  the error by half a step, `level_restore` says that levels survive.
-/

import Mathlib.Algebra.Order.Floor.Ring
import Mathlib.Tactic.Linarith
import Mathlib.Tactic.FieldSimp
import Mathlib.Tactic.Ring

variable {K : Type} [Field K] [LinearOrder K] [FloorRing K]

/-- The nearest integer, ties away from zero. -/
def roundAway (x : K) : Int := if 0 ≤ x then ⌊x + 1 / 2⌋ else ⌈x - 1 / 2⌉

/-- The position of `x` between `low` and `high`, in steps and rounded; positions outside saturate. -/
def level (steps : Nat) (low high x : K) : Int :=
  max 0 (min steps (roundAway ((x - low) / (high - low) * steps)))

/-- The value of a level. -/
def restore (steps : Nat) (low high : K) (position : Int) : K := low + position / steps * (high - low)

variable {steps : Nat} {low high x y : K}

theorem level_nonneg : 0 ≤ level steps low high x := le_max_left _ _

theorem level_le : level steps low high x ≤ steps :=
  max_le (Int.natCast_nonneg steps) (min_le_left _ _)

variable [IsStrictOrderedRing K]

/-! ### Rounding -/

theorem abs_roundAway_sub_le (x : K) : |(roundAway x : K) - x| ≤ 1 / 2 := by
  rw [roundAway]
  by_cases sign : 0 ≤ x
  · rw [if_pos sign, abs_le]
    have below := Int.floor_le (x + 1 / 2)
    have above := Int.lt_floor_add_one (x + 1 / 2)
    constructor <;> linarith
  · rw [if_neg sign, abs_le]
    have below := Int.ceil_lt_add_one (x - 1 / 2)
    have above := Int.le_ceil (x - 1 / 2)
    constructor <;> linarith

theorem roundAway_mono (ascends : x ≤ y) : roundAway x ≤ roundAway y := by
  rw [roundAway, roundAway]
  by_cases sign : 0 ≤ x
  · rw [if_pos sign, if_pos (sign.trans ascends)]
    exact Int.floor_mono (by linarith)
  · rw [if_neg sign]
    by_cases sign' : 0 ≤ y
    · rw [if_pos sign']
      -- across zero: nothing negative rounds above zero, nothing else below
      have below : ⌈x - 1 / 2⌉ ≤ 0 := Int.ceil_le.mpr (by push_cast; linarith [not_le.mp sign])
      exact below.trans (Int.floor_nonneg.mpr (by linarith))
    · rw [if_neg sign']
      exact Int.ceil_mono (by linarith)

theorem roundAway_natCast (n : Nat) : roundAway (n : K) = n := by
  rw [roundAway, if_pos (Nat.cast_nonneg n)]
  have half : ⌊(1 / 2 : K)⌋ = 0 := Int.floor_eq_zero_iff.mpr ⟨by norm_num, by norm_num⟩
  rw [Int.floor_natCast_add, half, add_zero]

/-! ### Levels of an interval -/

theorem level_mono (wide : low < high) (ascends : x ≤ y) :
    level steps low high x ≤ level steps low high y := by
  have range : 0 ≤ high - low := by linarith
  refine max_le_max le_rfl (min_le_min le_rfl (roundAway_mono ?_))
  exact mul_le_mul_of_nonneg_right (div_le_div_of_nonneg_right (by linarith) range)
    (Nat.cast_nonneg steps)

/-- A position that is a whole number of steps is its own level. -/
theorem level_eq (position : Nat) (within : position ≤ steps)
    (exactly : (x - low) / (high - low) * steps = position) : level steps low high x = position := by
  rw [level, exactly, roundAway_natCast, min_eq_right (by exact_mod_cast within)]
  exact max_eq_right (Int.natCast_nonneg position)

theorem level_of_le (wide : low < high) (below : x ≤ low) : level steps low high x = 0 := by
  refine le_antisymm ?_ level_nonneg
  calc level steps low high x ≤ level steps low high low := level_mono wide below
    _ = 0 := level_eq 0 (Nat.zero_le _) (by simp)

theorem level_of_ge (wide : low < high) (above : high ≤ x) : level steps low high x = steps := by
  refine le_antisymm level_le ?_
  have range : high - low ≠ 0 := by linarith
  calc (steps : Int) = level steps low high high := (level_eq steps le_rfl (by
        rw [div_self range, one_mul])).symm
    _ ≤ level steps low high x := level_mono wide above

/-- Inside the interval nothing saturates. -/
theorem level_inside (wide : low < high) (above : low ≤ x) (below : x ≤ high) :
    level steps low high x = roundAway ((x - low) / (high - low) * steps) := by
  have range : 0 < high - low := by linarith
  have count : (0 : K) ≤ steps := Nat.cast_nonneg steps
  have least : roundAway (((0 : Nat) : K)) ≤ roundAway ((x - low) / (high - low) * steps) := by
    refine roundAway_mono ?_
    rw [Nat.cast_zero]
    exact mul_nonneg (div_nonneg (by linarith) range.le) count
  have most : roundAway ((x - low) / (high - low) * steps) ≤ roundAway (steps : K) := by
    refine roundAway_mono ?_
    exact mul_le_of_le_one_left count ((div_le_one range).mpr (by linarith))
  rw [roundAway_natCast] at least most
  rw [level, min_eq_right most]
  exact max_eq_right least

/-- **Half a step of error at most.** -/
theorem abs_restore_level_sub_le (some_steps : 0 < steps) (wide : low < high) (above : low ≤ x)
    (below : x ≤ high) :
    |restore steps low high (level steps low high x) - x| ≤ (high - low) / (2 * steps) := by
  have range : 0 < high - low := by linarith
  have count : (0 : K) < steps := by exact_mod_cast some_steps
  rw [level_inside wide above below, restore]
  have near := abs_roundAway_sub_le ((x - low) / (high - low) * (steps : K))
  generalize (roundAway ((x - low) / (high - low) * (steps : K)) : K) = rounded at near ⊢
  -- the error is the rounding error in units of one step
  have scaled : low + rounded / steps * (high - low) - x =
      (rounded - (x - low) / (high - low) * steps) * ((high - low) / steps) := by
    field_simp
    ring
  have step : 0 < (high - low) / steps := div_pos range count
  rw [scaled, abs_mul, abs_of_pos step]
  calc |rounded - (x - low) / (high - low) * steps| * ((high - low) / steps)
      ≤ 1 / 2 * ((high - low) / steps) := mul_le_mul_of_nonneg_right near step.le
    _ = (high - low) / (2 * steps) := by field_simp

/-- **Levels survive.** -/
theorem level_restore (some_steps : 0 < steps) (wide : low < high) (position : Nat)
    (within : position ≤ steps) : level steps low high (restore steps low high position) = position := by
  have range : high - low ≠ 0 := by linarith
  have count : (steps : K) ≠ 0 := by exact_mod_cast some_steps.ne'
  refine level_eq position within ?_
  rw [restore, add_sub_cancel_left, mul_div_assoc, div_self range, mul_one, Int.cast_natCast,
    div_mul_cancel₀ _ count]
