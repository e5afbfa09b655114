import Mathlib.Algebra.Order.Floor.Ring
import Mathlib.Data.Int.Log
import Mathlib.Data.Rat.Floor
import Mathlib.Tactic.Linarith

/-!
# Rounding to single precision

A rational number in the range of the format, rounded to the nearest number of 24 bits, ties to
even. Below the normal numbers the spacing stays at `2 ^ (-149)`, so that numbers of at most half of
it are rounded to zero.
-/

namespace Xmix.SinglePrecision

def roundHalfEven (x : ℚ) : Int :=
  let n := ⌊x⌋
  if x - n < 1 / 2 then n else if 1 / 2 < x - n then n + 1 else if n % 2 = 0 then n else n + 1

def spacing (x : ℚ) : Int := max (Int.log 2 |x| - 23) (-149)

def toSingle (x : ℚ) : ℚ := roundHalfEven (x / 2 ^ spacing x) * 2 ^ spacing x

theorem roundHalfEven_zero : roundHalfEven 0 = 0 := by
  norm_num [roundHalfEven]

theorem toSingle_zero : toSingle 0 = 0 := by
  rw [toSingle, zero_div, roundHalfEven_zero, Int.cast_zero, zero_mul]

theorem le_of_roundHalfEven_eq_zero {x : ℚ} (h : roundHalfEven x = 0) : x ≤ 1 / 2 := by
  have hfloor := Int.lt_floor_add_one x
  have hle := Int.floor_le x
  simp only [roundHalfEven] at h
  split at h
  next hlt =>
    rw [h, Int.cast_zero] at hlt
    linarith
  next =>
    split at h
    next hgt =>
      have : ⌊x⌋ = -1 := by omega
      rw [this] at hfloor
      push_cast at hfloor
      linarith
    next hge =>
      split at h
      next =>
        rw [h, Int.cast_zero] at hge
        linarith
      next =>
        have : ⌊x⌋ = -1 := by omega
        rw [this] at hfloor
        push_cast at hfloor
        linarith

theorem toSingle_ne_zero {x : ℚ} (hx : 2 ^ (-150 : Int) < x) : toSingle x ≠ 0 := by
  intro h
  have hpos : 0 < x := lt_trans (zpow_pos two_pos _) hx
  have hsp : (0 : ℚ) < 2 ^ spacing x := zpow_pos two_pos _
  have hzero : roundHalfEven (x / 2 ^ spacing x) = 0 := by
    have := (mul_eq_zero.1 h).resolve_right hsp.ne'
    exact_mod_cast this
  have hhalf := le_of_roundHalfEven_eq_zero hzero
  rw [div_le_iff₀ hsp] at hhalf
  rcases le_total (Int.log 2 |x| - 23) (-149) with hle | hle
  · rw [spacing, max_eq_right hle] at hhalf
    have hmin : (1 : ℚ) / 2 * 2 ^ (-149 : Int) = 2 ^ (-150 : Int) := by norm_num
    exact absurd (hhalf.trans_eq hmin) (not_le.2 hx)
  · -- a normal number is many spacings
    rw [spacing, max_eq_left hle, abs_of_pos hpos] at hhalf
    have hlog : (2 : ℚ) ^ Int.log 2 x ≤ x := by exact_mod_cast Int.zpow_log_le_self (by norm_num : 1 < 2) hpos
    have hstep : (2 : ℚ) ^ (Int.log 2 x - 23) ≤ 2 ^ Int.log 2 x := zpow_le_zpow_right₀ (by norm_num) (by omega)
    linarith

end Xmix.SinglePrecision
