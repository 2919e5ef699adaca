import Gombit.Foundations.Decimal
import Mathlib.Algebra.Order.Field.Power
import Mathlib.Data.Nat.Digits.Defs
import Mathlib.Data.Nat.Digits.Lemmas
import Mathlib.Data.Rat.Floor
import Mathlib.Tactic.Linarith

/-!
# Fixed-point numbers

`IsDecimal p s q`: the number `q` is written with `p` decimal digits, `s` of them after the point;
a negative `s` means that the last digits are zeros that are not written.

* `IsDecimal.mono`: more digits on both sides of the point hold more numbers.
* `decText`: a number as text, with a fixed number of digits after the point. The text of a number with
  given digits has at most `longestText` characters and a sign (`length_decText_le`).
-/

namespace Gombit

open List

/-! ## Digits on both sides of the point -/

/-- `q = c · 10⁻ˢ` for an integer `c` of at most `p` digits. -/
def IsDecimal (p : ℕ) (s : ℤ) (q : ℚ) : Prop := ∃ c : ℤ, q = c * (10 : ℚ) ^ (-s) ∧ |c| < 10 ^ p

variable {p p' : ℕ} {s s' : ℤ} {q : ℚ}

/-- More digits before the point, and more after it. -/
theorem IsDecimal.mono (h : IsDecimal p s q) (hint : (p : ℤ) - s ≤ p' - s') (hfrac : s ≤ s') :
    IsDecimal p' s' q := by
  obtain ⟨c, rfl, hc⟩ := h
  obtain ⟨k, hk⟩ := Int.eq_ofNat_of_zero_le (sub_nonneg.2 hfrac)
  refine ⟨c * 10 ^ k, ?_, ?_⟩
  · have hs : -s = (k : ℤ) + -s' := by omega
    rw [hs, zpow_add₀ (by norm_num), zpow_natCast]
    push_cast
    ring
  · rw [abs_mul, abs_of_pos (show (0 : ℤ) < 10 ^ k by positivity)]
    calc |c| * 10 ^ k < 10 ^ p * 10 ^ k := by gcongr
      _ = 10 ^ (p + k) := (pow_add _ _ _).symm
      _ ≤ 10 ^ p' := by
        gcongr
        · norm_num
        · omega

/-- An integer of at most `d` digits. -/
theorem isDecimal_intCast {d : ℕ} {n : ℤ} (h : |n| < 10 ^ d) : IsDecimal d 0 n :=
  ⟨n, by simp, h⟩

/-! ## Texts -/

/-- The decimal digits of a number. -/
def natText (n : ℕ) : List Char :=
  if n = 0 then ['0'] else (Nat.digits 10 n).reverse.map Nat.digitChar

theorem length_natText_le_iff {n k : ℕ} (hk : k ≠ 0) : (natText n).length ≤ k ↔ n < 10 ^ k := by
  unfold natText
  split
  · rename_i hn
    subst hn
    have : 0 < 10 ^ k := by positivity
    simp only [length_singleton, this, iff_true]
    omega
  · rw [length_map, length_reverse, Nat.digits_length_le_iff (by norm_num)]

/-- The sign of a number. -/
def signText (m : ℤ) : List Char := if m < 0 then ['-'] else []

/-- The number `m · 10⁻ᵏ`, with `k` digits after the point. -/
def decText (k : ℕ) (m : ℤ) : List Char :=
  signText m ++ natText (m.natAbs / 10 ^ k) ++
    if k = 0 then [] else '.' :: padDigits k (m.natAbs % 10 ^ k)

theorem length_decText (k : ℕ) (m : ℤ) :
    (decText k m).length =
      (if m < 0 then 1 else 0) + (natText (m.natAbs / 10 ^ k)).length + if k = 0 then 0 else k + 1 := by
  have hsign : (signText m).length = if m < 0 then 1 else 0 := by
    unfold signText
    split <;> rfl
  have hfrac : (if k = 0 then [] else '.' :: padDigits k (m.natAbs % 10 ^ k)).length =
      if k = 0 then 0 else k + 1 := by
    split <;> simp
  rw [decText, length_append, length_append, hsign, hfrac]

variable {c : Char} {m : ℤ}

theorem mem_padDigits {w n : ℕ} (h : c ∈ padDigits w n) :
    ∃ d < 10, c = Nat.digitChar d := by
  induction w with
  | zero => cases h
  | succ w ih =>
    rcases mem_cons.1 h with rfl | h
    · exact ⟨_, Nat.mod_lt _ (by norm_num), rfl⟩
    · exact ih h

theorem mem_natText {n : ℕ} (h : c ∈ natText n) : ∃ d < 10, c = Nat.digitChar d := by
  unfold natText at h
  split at h
  · exact ⟨0, by norm_num, mem_singleton.1 h⟩
  · obtain ⟨d, hd, rfl⟩ := mem_map.1 h
    exact ⟨d, Nat.digits_lt_base (by norm_num) (mem_reverse.1 hd), rfl⟩

/-- A number is written with digits, a sign and a point. -/
theorem mem_decText {k : ℕ} (h : c ∈ decText k m) :
    c = '-' ∨ c = '.' ∨ ∃ d < 10, c = Nat.digitChar d := by
  rcases mem_append.1 h with h | h
  · rcases mem_append.1 h with h | h
    · unfold signText at h
      split at h
      · exact .inl (mem_singleton.1 h)
      · cases h
    · exact .inr (.inr (mem_natText h))
  · split at h
    · cases h
    · rcases mem_cons.1 h with rfl | h
      · exact .inr (.inl rfl)
      · exact .inr (.inr (mem_padDigits h))

/-! ## The longest text -/

/-- The length of the longest text of a number with `p` digits, `s` of them after the point, but for
the sign. -/
def longestText (p : ℕ) (s : ℤ) : ℕ :=
  if s ≤ 0 then p + (-s).toNat else max (p - s.toNat) 1 + (s.toNat + 1)

theorem zpow_neg_mul_pow (s : ℤ) : (10 : ℚ) ^ (-s) * 10 ^ s.toNat = 10 ^ (-s).toNat := by
  rw [← zpow_natCast, ← zpow_natCast, ← zpow_add₀ (by norm_num)]
  congr 1
  omega

/-- The coefficient of the number, when it is written with the digits after the point only. -/
theorem IsDecimal.natAbs_lt (h : IsDecimal p s q) (hm : q = m / 10 ^ s.toNat) :
    m.natAbs < 10 ^ (p + (-s).toNat) := by
  obtain ⟨c, hc, hlt⟩ := h
  have hmc : m = c * 10 ^ (-s).toNat := by
    have hten : (10 : ℚ) ^ s.toNat ≠ 0 := by positivity
    rw [hm, div_eq_iff hten] at hc
    rw [mul_assoc, zpow_neg_mul_pow] at hc
    exact_mod_cast hc
  have hc' : c.natAbs < 10 ^ p := by
    have : ((c.natAbs : ℕ) : ℤ) < ((10 ^ p : ℕ) : ℤ) := by
      rw [Int.natCast_natAbs]
      exact_mod_cast hlt
    exact_mod_cast this
  rw [hmc, Int.natAbs_mul, Int.natAbs_pow, pow_add]
  exact Nat.mul_lt_mul_of_pos_right hc' (by positivity)

theorem length_decText_le (h : IsDecimal p s q) (hp : p ≠ 0) (hm : q = m / 10 ^ s.toNat) :
    (decText s.toNat m).length ≤ (if m < 0 then 1 else 0) + longestText p s := by
  have hlt := h.natAbs_lt hm
  rw [length_decText, longestText]
  by_cases hs : s ≤ 0
  · have hk : s.toNat = 0 := by omega
    have hlen : (natText m.natAbs).length ≤ p + (-s).toNat := (length_natText_le_iff (by omega)).2 hlt
    simp only [hk, pow_zero, Nat.div_one, if_true, if_pos hs]
    omega
  · have hk : s.toNat ≠ 0 := by omega
    have hneg : (-s).toNat = 0 := by omega
    rw [hneg, Nat.add_zero] at hlt
    have hlen : (natText (m.natAbs / 10 ^ s.toNat)).length ≤ max (p - s.toNat) 1 := by
      rw [length_natText_le_iff (by omega), Nat.div_lt_iff_lt_mul (by positivity), ← pow_add]
      exact hlt.trans_le (Nat.pow_le_pow_right (by norm_num) (by omega))
    rw [if_neg hk, if_neg hs]
    omega

theorem length_natText_pos (n : ℕ) : 0 < (natText n).length := by
  unfold natText
  split
  · simp
  · rename_i hn
    simp [length_pos_iff, Nat.digits_ne_nil_iff_ne_zero, hn]

end Gombit
