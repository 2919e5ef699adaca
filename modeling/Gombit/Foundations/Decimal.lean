import Mathlib.Data.List.Lex
import Mathlib.Data.Nat.Log
import Mathlib.Tactic.Ring
import Mathlib.Tactic.IntervalCases
import Mathlib.Order.Lex
import Mathlib.Data.Char

/-!
# Numbers of bounded precision, and their decimal digits

Rounding to a multiple of a unit, ties to even (`roundTo`), gives both the nearest number with 53
significant bits (`toDouble`) and the nearest one with 14 significant decimal digits
(`toFourteenDigits`). Both leave small numbers alone.

Numbers written with a fixed number of digits (`padDigits`) are ordered as text the way they are
ordered as numbers: `padDigits_append_lt`.
-/

namespace Gombit

/-! ## Rounding -/

/-- The multiple of `u` nearest to `n`, of two the even one. -/
def roundTo (u n : ℕ) : ℕ :=
  if 2 * (n % u) < u ∨ 2 * (n % u) = u ∧ n / u % 2 = 0 then n / u * u else (n / u + 1) * u

/-- The nearest number with 53 significant bits. -/
def toDouble (n : ℕ) : ℕ := if n < 2 ^ 53 then n else roundTo (2 ^ (Nat.log2 n - 52)) n

/-- The nearest number with 14 significant decimal digits. -/
def toFourteenDigits (n : ℕ) : ℕ :=
  if n < 10 ^ 14 then n else roundTo (10 ^ (Nat.log 10 n - 13)) n

/-- A rounding of naturals, applied to the absolute value of an integer. -/
def onAbs (f : ℕ → ℕ) (z : ℤ) : ℤ := if 0 ≤ z then f z.toNat else -f (-z).toNat

theorem toDouble_of_le {n : ℕ} (h : n ≤ 2 ^ 53) : toDouble n = n := by
  rcases Nat.lt_or_ge n (2 ^ 53) with hlt | hge
  · exact if_pos hlt
  · obtain rfl : n = 2 ^ 53 := le_antisymm h hge
    decide

theorem le_roundTo (u n : ℕ) : n / u * u ≤ roundTo u n := by
  unfold roundTo
  split
  · exact le_rfl
  · exact Nat.mul_le_mul_right u (Nat.le_succ _)

/-- A number that needs rounding is not rounded below the exact ones. -/
theorem le_toDouble {n : ℕ} (h : 2 ^ 53 ≤ n) : 2 ^ 53 ≤ toDouble n := by
  have hlog : 53 ≤ Nat.log2 n := (Nat.le_log2 (by omega)).2 h
  have hpow : 2 ^ 52 * 2 ^ (Nat.log2 n - 52) ≤ n := by
    rw [← pow_add, show 52 + (Nat.log2 n - 52) = Nat.log2 n by omega]
    exact Nat.log2_self_le (by omega)
  have hdiv : 2 ^ 52 ≤ n / 2 ^ (Nat.log2 n - 52) := (Nat.le_div_iff_mul_le (by positivity)).2 hpow
  have hunit : 2 ≤ 2 ^ (Nat.log2 n - 52) := by
    calc 2 = 2 ^ 1 := rfl
      _ ≤ 2 ^ (Nat.log2 n - 52) := Nat.pow_le_pow_right (by omega) (by omega)
  rw [toDouble, if_neg (by omega)]
  calc 2 ^ 53 = 2 ^ 52 * 2 := rfl
    _ ≤ n / 2 ^ (Nat.log2 n - 52) * 2 ^ (Nat.log2 n - 52) := Nat.mul_le_mul hdiv hunit
    _ ≤ _ := le_roundTo _ _

/-- Rounding adds little. -/
theorem toDouble_le (n : ℕ) : toDouble n ≤ n + n / 2 ^ 52 := by
  unfold toDouble
  split
  · omega
  · rename_i hlt
    have hlog : 52 ≤ Nat.log2 n := (Nat.le_log2 (by omega)).2 (by omega)
    have hself : 2 ^ Nat.log2 n ≤ n := Nat.log2_self_le (by omega)
    set u := 2 ^ (Nat.log2 n - 52) with hu
    have hunit : u ≤ n / 2 ^ 52 := by
      rw [Nat.le_div_iff_mul_le (by positivity), hu, ← pow_add]
      rwa [show Nat.log2 n - 52 + 52 = Nat.log2 n by omega]
    have hround : roundTo u n ≤ n / u * u + u := by
      unfold roundTo
      split
      · omega
      · rw [Nat.add_mul, one_mul]
    have hdiv : n / u * u ≤ n := Nat.div_mul_le_self n u
    omega

/-- Rounding does not move a number across a bound that is exact. -/
theorem toDouble_le_iff {n b : ℕ} (hb : b < 2 ^ 53) : toDouble n ≤ b ↔ n ≤ b := by
  rcases Nat.lt_or_ge n (2 ^ 53) with hlt | hge
  · rw [toDouble_of_le hlt.le]
  · have := le_toDouble hge
    omega

theorem toFourteenDigits_of_lt {n : ℕ} (h : n < 10 ^ 14) : toFourteenDigits n = n :=
  if_pos h

theorem onAbs_of_nonneg {f : ℕ → ℕ} {z : ℤ} (hz : 0 ≤ z) (hf : f z.toNat = z.toNat) :
    onAbs f z = z := by
  simp [onAbs, hz, hf]

theorem onAbs_toDouble_le_iff {z b : ℤ} (hz : 0 ≤ z) (hb : b < 2 ^ 53) (hb0 : 0 ≤ b) :
    onAbs toDouble z ≤ b ↔ z ≤ b := by
  rw [onAbs, if_pos hz]
  have hiff : toDouble z.toNat ≤ b.toNat ↔ z.toNat ≤ b.toNat := toDouble_le_iff (by omega)
  omega

/-- A number that rounds to a small one is that number. -/
theorem onAbs_toDouble_eq_iff {z b : ℤ} (hb : |b| < 2 ^ 53) : onAbs toDouble z = b ↔ z = b := by
  have hfix : ∀ {n : ℕ} {b : ℤ}, |b| < 2 ^ 53 → ((toDouble n : ℤ) = b ↔ (n : ℤ) = b) := by
    intro n b hb
    rw [abs_lt] at hb
    rcases Nat.lt_or_ge n (2 ^ 53) with hlt | hge
    · rw [toDouble_of_le hlt.le]
    · have := le_toDouble hge
      constructor <;> omega
  unfold onAbs
  split
  · rw [hfix hb]
    omega
  · rw [neg_eq_iff_eq_neg, hfix (by rwa [abs_neg])]
    omega

/-! ## Fixed-width decimals -/

/-- The last `w` decimal digits of `n`, the most significant first. -/
def padDigits : ℕ → ℕ → List Char
  | 0, _ => []
  | w + 1, n => Nat.digitChar (n / 10 ^ w % 10) :: padDigits w n

/-- `n` in decimal, with leading zeros up to the width `w`. -/
def formatWidth (w n : ℕ) : List Char := if n < 10 ^ w then padDigits w n else Nat.toDigits 10 n

@[simp] theorem length_padDigits (w n : ℕ) : (padDigits w n).length = w := by
  induction w with
  | zero => rfl
  | succ w ih => simp [padDigits, ih]

theorem digitChar_lt {a b : ℕ} (ha : a < 10) (hb : b < 10) :
    Nat.digitChar a < Nat.digitChar b ↔ a < b := by
  interval_cases a <;> interval_cases b <;> decide

theorem digitChar_inj {a b : ℕ} (ha : a < 10) (hb : b < 10) :
    Nat.digitChar a = Nat.digitChar b ↔ a = b := by
  interval_cases a <;> interval_cases b <;> decide

theorem eq_iff_div_mod (u : ℕ) {a b : ℕ} : a = b ↔ a / u = b / u ∧ a % u = b % u := by
  refine ⟨fun h => h ▸ ⟨rfl, rfl⟩, fun ⟨hq, hr⟩ => ?_⟩
  rw [← Nat.div_add_mod a u, ← Nat.div_add_mod b u, hq, hr]

theorem lt_iff_div_mod (u : ℕ) {a b : ℕ} :
    a < b ↔ a / u < b / u ∨ a / u = b / u ∧ a % u < b % u := by
  have ha := Nat.div_add_mod a u
  have hb := Nat.div_add_mod b u
  rcases lt_trichotomy (a / u) (b / u) with hlt | heq | hgt
  · have hab : a < b := lt_of_not_ge fun h => absurd (Nat.div_le_div_right h) (not_le.2 hlt)
    simp [hlt, hab]
  · rw [heq] at ha ⊢
    omega
  · have hba : b < a := lt_of_not_ge fun h => absurd (Nat.div_le_div_right h) (not_le.2 hgt)
    omega

theorem padDigits_mod {v w : ℕ} (h : w ≤ v) (n : ℕ) : padDigits w (n % 10 ^ v) = padDigits w n := by
  induction w with
  | zero => rfl
  | succ w ih =>
    have hdigit : n % 10 ^ v / 10 ^ w % 10 = n / 10 ^ w % 10 := by
      obtain ⟨c, rfl⟩ := Nat.exists_eq_add_of_le h
      rw [show 10 ^ (w + 1 + c) = 10 ^ w * (10 * 10 ^ c) by ring, Nat.mod_mul_right_div_self,
        Nat.mod_mul_right_mod]
    rw [padDigits, padDigits, hdigit, ih (by omega)]

/-- **Fixed-width decimals sort as numbers**, and then by what follows them. -/
theorem padDigits_append_lt {w a b : ℕ} (ha : a < 10 ^ w) (hb : b < 10 ^ w) (s t : List Char) :
    padDigits w a ++ s < padDigits w b ++ t ↔ a < b ∨ a = b ∧ s < t := by
  induction w generalizing a b with
  | zero =>
    obtain ⟨rfl, rfl⟩ : a = 0 ∧ b = 0 := by omega
    simp [padDigits]
  | succ w ih =>
    -- The first digits decide, or else the remainders do, which have one digit less.
    have hpos : 0 < 10 ^ w := by positivity
    have hda : a / 10 ^ w < 10 := Nat.div_lt_of_lt_mul (by rwa [pow_succ] at ha)
    have hdb : b / 10 ^ w < 10 := Nat.div_lt_of_lt_mul (by rwa [pow_succ] at hb)
    have htail := ih (Nat.mod_lt a hpos) (Nat.mod_lt b hpos)
    rw [padDigits_mod le_rfl, padDigits_mod le_rfl] at htail
    simp only [padDigits, List.cons_append, List.cons_lt_cons_iff, Nat.mod_eq_of_lt hda,
      Nat.mod_eq_of_lt hdb, digitChar_lt hda hdb, digitChar_inj hda hdb, htail]
    have hlt := lt_iff_div_mod (10 ^ w) (a := a) (b := b)
    have heq := eq_iff_div_mod (10 ^ w) (a := a) (b := b)
    tauto

end Gombit
