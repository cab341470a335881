import Mathlib.Data.Int.Log
import Mathlib.Data.Rat.Floor
import Mathlib.Tactic.FieldSimp
import Mathlib.Tactic.Positivity

/-!
# Arithmetic in double precision

A double that is neither infinite nor a NaN is a rational. The operations compute the
exact result and round it to 53 significant bits, to nearest with ties to even. The
range of the exponent is not modelled: it is for values far from overflow and from the
subnormals.

* `round_dyadic`: a dyadic rational whose numerator has at most 53 bits is not rounded.
* `toUInt32`, `toInt32`: the conversions truncate and saturate, as RISC-V's
  `fcvt.wu.d` and `fcvt.w.d` do.
-/

namespace AudioPlayer.Double

/-- The nearest integer, the even one of two. -/
def roundEven (q : ℚ) : ℤ :=
  let n := ⌊q⌋
  let r := q - n
  if r < 1 / 2 then n else if 1 / 2 < r then n + 1 else if n % 2 = 0 then n else n + 1

/-- The exponent of the last of the 53 bits of `q`. -/
def ulp (q : ℚ) : ℤ := Int.log 2 |q| - 52

/-- Rounding to 53 significant bits. -/
def round (q : ℚ) : ℚ := if q = 0 then 0 else roundEven (q / 2 ^ ulp q) * 2 ^ ulp q

def mul (a b : ℚ) : ℚ := round (a * b)

def div (a b : ℚ) : ℚ := round (a / b)

def add (a b : ℚ) : ℚ := round (a + b)

def sub (a b : ℚ) : ℚ := round (a - b)

/-- Rounding towards zero. -/
def trunc (q : ℚ) : ℤ := if 0 ≤ q then ⌊q⌋ else ⌈q⌉

def toUInt32 (q : ℚ) : ℕ := (max 0 (min (trunc q) (2 ^ 32 - 1))).toNat

def toInt32 (q : ℚ) : ℤ := max (-2 ^ 31) (min (trunc q) (2 ^ 31 - 1))

theorem roundEven_intCast (n : ℤ) : roundEven n = n := by
  unfold roundEven
  simp

/-- **A dyadic rational with at most 53 bits is a double.** -/
theorem round_dyadic (m : ℤ) (j : ℕ) (hm : |m| < 2 ^ 53) : round (m / 2 ^ j) = m / 2 ^ j := by
  unfold round
  split
  · rename_i h0
    rw [h0]
  rename_i h0
  set q : ℚ := m / 2 ^ j with hq
  have habs : |q| = |(m : ℚ)| / 2 ^ j := by
    rw [hq, abs_div, abs_of_pos (by positivity : (0 : ℚ) < 2 ^ j)]
  -- the last bit of `q` is at or below its last fractional bit
  have hlog : Int.log 2 |q| < 53 - j := by
    rw [← Int.lt_zpow_iff_log_lt (by decide) (abs_pos.2 h0), habs]
    have hm' : |(m : ℚ)| < 2 ^ 53 := by exact_mod_cast hm
    have hpow : ((2 : ℕ) : ℚ) ^ (53 - j : ℤ) = 2 ^ 53 / 2 ^ j := by
      rw [zpow_sub₀ (by norm_num), zpow_natCast]
      norm_num
    rw [hpow]
    exact div_lt_div_of_pos_right hm' (by positivity)
  obtain ⟨n, hn⟩ : ∃ n : ℕ, ulp q = -(n : ℤ) - j := by
    refine ⟨(-(ulp q) - j).toNat, ?_⟩
    unfold ulp
    omega
  have hpow : (2 : ℚ) ^ ulp q = 1 / (2 ^ n * 2 ^ j) := by
    rw [hn, show -(n : ℤ) - j = -((n + j : ℕ) : ℤ) by push_cast; ring, zpow_neg, zpow_natCast, pow_add,
      one_div]
  have hint : q / 2 ^ ulp q = ((m * 2 ^ n : ℤ) : ℚ) := by
    rw [hpow, hq]
    push_cast
    field_simp
  rw [hint, roundEven_intCast, ← hint]
  exact div_mul_cancel₀ q (zpow_ne_zero _ (by norm_num))

end AudioPlayer.Double
