import Mathlib.Algebra.Order.Floor.Ring
import Mathlib.Algebra.Order.Round
import Mathlib.Data.Int.Log
import Mathlib.Data.Rat.Floor
import Mathlib.Tactic.FieldSimp
import Mathlib.Tactic.Linarith
import Mathlib.Tactic.Positivity

/-!
# Rationals rounded to 53 bits

`nearestDouble` is the rounding of IEEE binary arithmetic: the nearest number with 53 significant
bits, of two the one whose last bit is even. The exponent is not bounded, so nothing overflows and
nothing is subnormal.

* `roundEven_mono`, `nearestDouble_mono`: rounding keeps the order.
* `nearestDouble_natCast`: numbers up to `2 ^ 53` are kept.
-/

namespace Gombit

/-- The integer nearest to `q`, of two the even one. -/
def roundEven (q : ℚ) : ℤ :=
  if q - ⌊q⌋ < 1 / 2 ∨ q - ⌊q⌋ = 1 / 2 ∧ ⌊q⌋ % 2 = 0 then ⌊q⌋ else ⌊q⌋ + 1

theorem floor_le_roundEven (q : ℚ) : ⌊q⌋ ≤ roundEven q := by
  unfold roundEven
  split <;> omega

theorem roundEven_le_floor (q : ℚ) : roundEven q ≤ ⌊q⌋ + 1 := by
  unfold roundEven
  split <;> omega

theorem roundEven_intCast (n : ℤ) : roundEven n = n := by
  simp [roundEven]

theorem roundEven_mono {q r : ℚ} (h : q ≤ r) : roundEven q ≤ roundEven r := by
  rcases (Int.floor_mono h).lt_or_eq with hlt | heq
  · calc roundEven q ≤ ⌊q⌋ + 1 := roundEven_le_floor q
      _ ≤ ⌊r⌋ := hlt
      _ ≤ roundEven r := floor_le_roundEven r
  · unfold roundEven
    rw [heq]
    split
    · split <;> omega
    · rename_i hup
      rw [if_neg ?_]
      -- what is rounded down from above is rounded down from below
      rintro (hlow | ⟨hhalf, heven⟩)
      · exact hup (Or.inl (by linarith))
      · rcases h.lt_or_eq with hqr | rfl
        · exact hup (Or.inl (by linarith))
        · exact hup (Or.inr ⟨hhalf, heven⟩)

/-- The unit in the last of 53 bits of `x`. -/
def lastBit (x : ℚ) : ℚ := 2 ^ (Int.log 2 |x| - 52)

/-- The nearest number with 53 significant bits. -/
def nearestDouble (x : ℚ) : ℚ := roundEven (x / lastBit x) * lastBit x

theorem lastBit_pos (x : ℚ) : 0 < lastBit x := zpow_pos (by norm_num) _

theorem nearestDouble_zero : nearestDouble 0 = 0 := by
  have h := roundEven_intCast 0
  rw [Int.cast_zero] at h
  rw [nearestDouble, zero_div, h, Int.cast_zero, zero_mul]

variable {x : ℚ}

theorem nearestDouble_nonneg (h : 0 ≤ x) : 0 ≤ nearestDouble x := by
  have hround : (0 : ℤ) ≤ roundEven (x / lastBit x) := by
    rw [← roundEven_intCast 0]
    exact roundEven_mono (by rw [Int.cast_zero]; exact div_nonneg h (lastBit_pos x).le)
  exact mul_nonneg (by exact_mod_cast hround) (lastBit_pos x).le

theorem nearestDouble_nonpos (h : x ≤ 0) : nearestDouble x ≤ 0 := by
  have hround : roundEven (x / lastBit x) ≤ 0 := by
    rw [← roundEven_intCast 0]
    exact roundEven_mono (by rw [Int.cast_zero]; exact div_nonpos_of_nonpos_of_nonneg h (lastBit_pos x).le)
  exact mul_nonpos_of_nonpos_of_nonneg (by exact_mod_cast hround) (lastBit_pos x).le

/-- Rounding stays at or above the power of two below. -/
theorem pow_log_le_nearestDouble (h : 0 < x) :
    (2 : ℚ) ^ Int.log 2 x ≤ nearestDouble x := by
  have hlog : (2 : ℚ) ^ Int.log 2 x ≤ x := by
    exact_mod_cast Int.zpow_log_le_self (b := 2) (by decide) h
  have hunit : lastBit x = 2 ^ (Int.log 2 x - 52) := by rw [lastBit, abs_of_pos h]
  have hsplit : (2 : ℚ) ^ Int.log 2 x = ((2 ^ 52 : ℤ) : ℚ) * lastBit x := by
    rw [hunit, zpow_sub₀ (by norm_num)]
    norm_num
    field_simp
  have hround : (2 ^ 52 : ℤ) ≤ roundEven (x / lastBit x) := by
    rw [← roundEven_intCast (2 ^ 52)]
    refine roundEven_mono ?_
    rw [le_div_iff₀ (lastBit_pos x), ← hsplit]
    exact hlog
  rw [hsplit]
  exact mul_le_mul_of_nonneg_right (by exact_mod_cast hround) (lastBit_pos x).le

/-- Rounding stays at or below the power of two above. -/
theorem nearestDouble_le_pow_log (h : 0 < x) :
    nearestDouble x ≤ (2 : ℚ) ^ (Int.log 2 x + 1) := by
  have hlog : x < (2 : ℚ) ^ (Int.log 2 x + 1) := by
    exact_mod_cast Int.lt_zpow_succ_log_self (b := 2) (by decide) x
  have hunit : lastBit x = 2 ^ (Int.log 2 x - 52) := by rw [lastBit, abs_of_pos h]
  have hsplit : (2 : ℚ) ^ (Int.log 2 x + 1) = ((2 ^ 53 : ℤ) : ℚ) * lastBit x := by
    rw [hunit, zpow_sub₀ (by norm_num), zpow_add₀ (by norm_num)]
    norm_num
    field_simp
    norm_num
  have hround : roundEven (x / lastBit x) ≤ (2 ^ 53 : ℤ) := by
    rw [← roundEven_intCast (2 ^ 53)]
    refine roundEven_mono ?_
    rw [div_le_iff₀ (lastBit_pos x), ← hsplit]
    exact hlog.le
  rw [hsplit]
  exact mul_le_mul_of_nonneg_right (by exact_mod_cast hround) (lastBit_pos x).le

/-- **Rounding keeps the order.** -/
theorem nearestDouble_mono {y : ℚ} (hx : 0 ≤ x) (h : x ≤ y) :
    nearestDouble x ≤ nearestDouble y := by
  rcases hx.lt_or_eq with hx | rfl
  · have hy : 0 < y := hx.trans_le h
    rcases (Int.log_mono_right hx h).lt_or_eq with hlt | heq
    · -- a power of two lies between them
      calc nearestDouble x ≤ (2 : ℚ) ^ (Int.log 2 x + 1) := nearestDouble_le_pow_log hx
        _ ≤ 2 ^ Int.log 2 y := zpow_le_zpow_right₀ (by norm_num) hlt
        _ ≤ nearestDouble y := pow_log_le_nearestDouble hy
    · have hunit : lastBit x = lastBit y := by
        rw [lastBit, lastBit, abs_of_pos hx, abs_of_pos hy, heq]
      unfold nearestDouble
      rw [hunit]
      refine mul_le_mul_of_nonneg_right ?_ (lastBit_pos y).le
      exact_mod_cast roundEven_mono (div_le_div_of_nonneg_right h (lastBit_pos y).le)
  · rw [nearestDouble_zero]
    exact nearestDouble_nonneg h

/-- A multiple of its last bit is kept. -/
theorem nearestDouble_eq_self {n : ℤ} (h : x = n * lastBit x) : nearestDouble x = x := by
  have hdiv : x / lastBit x = n := by
    rw [div_eq_iff (lastBit_pos x).ne']
    exact h
  rw [nearestDouble, hdiv, roundEven_intCast]
  exact h.symm

/-- Numbers up to `2 ^ 53` are kept. -/
theorem nearestDouble_natCast {n : ℕ} (h : n ≤ 2 ^ 53) : nearestDouble n = n := by
  have hlog : Int.log 2 |(n : ℚ)| = Nat.log 2 n := by
    rw [Nat.abs_cast, Int.log_natCast]
  rcases Nat.lt_or_ge n (2 ^ 53) with hlt | hge
  · have hle : Nat.log 2 n ≤ 52 := by
      rcases Nat.eq_zero_or_pos n with rfl | hpos
      · simp
      · exact Nat.lt_succ_iff.1 (Nat.log_lt_of_lt_pow hpos.ne' hlt)
    refine nearestDouble_eq_self (n := n * 2 ^ (52 - Nat.log 2 n)) ?_
    have hexp : (Nat.log 2 n : ℤ) - 52 = -((52 - Nat.log 2 n : ℕ) : ℤ) := by omega
    rw [lastBit, hlog, hexp, zpow_neg, zpow_natCast]
    push_cast
    field_simp
  · obtain rfl : n = 2 ^ 53 := le_antisymm h hge
    refine nearestDouble_eq_self (n := 2 ^ 52) ?_
    rw [lastBit, hlog, Nat.log_pow (by omega)]
    norm_num

/-- The first number that is not kept. -/
theorem nearestDouble_odd : nearestDouble ((2 ^ 53 + 1 : ℕ) : ℚ) = (2 ^ 53 : ℕ) := by
  have hlog : Int.log 2 |((2 ^ 53 + 1 : ℕ) : ℚ)| = 53 := by
    rw [Nat.abs_cast, Int.log_natCast]
    have h : Nat.log 2 (2 ^ 53 + 1) = 53 := (Nat.log_eq_iff (by omega)).2 ⟨by omega, by omega⟩
    rw [h]
    rfl
  have hunit : lastBit ((2 ^ 53 + 1 : ℕ) : ℚ) = 2 := by
    rw [lastBit, hlog]
    norm_num
  have hfloor : ⌊((2 ^ 53 + 1 : ℕ) : ℚ) / 2⌋ = 2 ^ 52 := by
    rw [Int.floor_eq_iff]
    norm_num
  rw [nearestDouble, hunit, roundEven, hfloor, if_pos]
  · norm_num
  · exact Or.inr ⟨by norm_num, by norm_num⟩

end Gombit
