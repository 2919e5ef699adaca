import Gombit.Types.Decimal
import Mathlib.Data.Int.Log
import Mathlib.Data.List.TakeWhile
import Mathlib.Data.Nat.Size

/-!
# The digits of a decimal

What `DecimalShapeOf` and `spellingShape` measure is the notation that `String` writes.

* `shapeOfText`: the digits before the point, after it, and from the first that is not zero on,
  counted on a text.
* `shapeOfText_canonical`: the significant digits of a value and the place of the last of them give
  the counts of its canonical notation.
* `decimalShapeOf_eq`: with the estimate of the source, a float product, the big coefficients that are
  refused early are refused anyway.
* `spellingShape_true_shape`: the measure of a text, the measure of the value it spells and the counts
  of the canonical notation agree.
* `storageProblem_empty_iff`: what the guard lets through.
-/

namespace Gombit.Types

/-! ## The estimate of a coefficient's digits -/

/-- `0.30102999566398119521` as a float, in units of `2 ^ -54`. -/
def log10Two : ℕ := roundTo (10 ^ 20) (30102999566398119521 * 2 ^ 54) / 10 ^ 20

/-- `int(float64(bits) * 0.30102999566398119521) + 1`: the factors and the product are floats, and
the conversion drops the fraction. -/
def digitEstimate (bits : ℕ) : ℕ := toDouble (toDouble bits * log10Two) / 2 ^ 54 + 1

/-- A coefficient that the estimate refuses has more than 2000 digits. -/
theorem pow_le_of_digitEstimate {c : ℕ} (h : 3 * maxDecimalDigits + 1 < digitEstimate c.size) :
    10 ^ (2 * maxDecimalDigits) ≤ c := by
  by_contra hlt
  have hpow : ∃ b, b = 6644 ∧ 10 ^ (2 * maxDecimalDigits) ≤ 2 ^ b := ⟨6644, by decide +kernel⟩
  obtain ⟨b, hb, hpow⟩ := hpow
  have hsize : c.size ≤ b := Nat.size_le.2 (lt_of_lt_of_le (not_le.1 hlt) hpow)
  have hexact : toDouble c.size = c.size := toDouble_of_le (by omega)
  have hvalue : log10Two = 5422874305198591 := by decide +kernel
  have hle := toDouble_le (c.size * log10Two)
  rw [digitEstimate, hexact] at h
  simp only [hvalue, maxDecimalDigits] at h hle
  omega

/-! ## Both measures are the same -/

/-- The measure of a value other than zero. -/
theorem decimalShapeOf_eq {d : Decimal} (hb : ¬ Unbounded d.exponent) {n t : ℕ}
    (h : Measured d.coefficient.natAbs n t) :
    decimalShapeOf digitEstimate d = checkedShape n (d.exponent + t) := by
  have hne : d.coefficient ≠ 0 := fun h0 => h.ne_zero (by rw [h0]; rfl)
  rw [decimalShapeOf, if_neg hb, if_neg hne]
  cases hdigits : coefficientDigits digitEstimate d.coefficient.natAbs with
  | some p =>
    obtain ⟨n', t'⟩ := p
    obtain ⟨rfl, rfl⟩ := h.unique (measured_coefficientDigits (Int.natAbs_ne_zero.2 hne) hdigits)
    rfl
  | none =>
    -- the value has more than 1000 digits before the point
    have hbig : 10 ^ (2 * maxDecimalDigits) ≤ d.coefficient.natAbs := by
      unfold coefficientDigits at hdigits
      split_ifs at hdigits
      rename_i hest
      exact pow_le_of_digitEstimate hest
    have hlen : 2 * maxDecimalDigits < n + t :=
      (Nat.pow_lt_pow_iff_right (by norm_num)).1 (lt_of_le_of_lt hbig h.lt)
    have hdig : maxDecimalDigits < (shapeOf n (d.exponent + t)).digits := by
      simp only [Unbounded] at hb
      simp only [DecimalShape.digits, shapeOf]
      omega
    rw [checkedShape, if_pos hdig]

theorem decimalShapeOf_zero {d : Decimal} (hb : ¬ Unbounded d.exponent) (h : d.coefficient = 0) :
    decimalShapeOf digitEstimate d = .ok {} := by
  rw [decimalShapeOf, if_neg hb, if_pos h]

/-- Every byte before the exponent is a digit, but for the sign and the point. -/
theorem isDigitByte_of_mem_splitSpelling {s : Bytes} {c : UInt8}
    (h : c ∈ (splitSpelling s).int ++ (splitSpelling s).frac) : isDigitByte c = true := by
  rcases List.mem_append.1 h with h | h
  · exact List.mem_takeWhile_imp h
  · simp only [splitSpelling] at h
    cases hs : (splitSign s).2.dropWhile isDigitByte with
    | nil => simp [hs, splitFrac] at h
    | cons b r =>
      rw [hs, splitFrac] at h
      split at h
      · exact List.mem_takeWhile_imp h
      · cases h

theorem natAbs_spelledValue (s : Bytes) :
    (spelledValue s).coefficient.natAbs =
      numeral ((splitSpelling s).int ++ (splitSpelling s).frac) := by
  unfold spelledValue
  dsimp only
  split <;> simp

/-- The text and the value it spells measure the same. -/
theorem spellingShape_eq {s : Bytes} {r : Except Bytes DecimalShape} (h : spellingShape s = some r) :
    decimalShapeOf digitEstimate (spelledValue s) = r := by
  set digits := (splitSpelling s).int ++ (splitSpelling s).frac with hdigits
  have habs : (spelledValue s).coefficient.natAbs = numeral digits := natAbs_spelledValue s
  have hspan := spanMeasures_nonZeroSpan (s := digits) fun c hc => isDigitByte_of_mem_splitSpelling hc
  unfold spellingShape at h
  simp only [← hdigits] at h
  split_ifs at h
  cases hexp : spelledExponent (splitSpelling s).rest with
  | none => simp [hexp] at h
  | some e =>
    have hexponent : e - ((splitSpelling s).frac.length : ℤ) = (spelledValue s).exponent := by
      simp [spelledValue, hexp]
    simp only [hexp, hexponent] at h
    split at h
    · rename_i hb
      cases h
      rw [decimalShapeOf, if_pos hb]
    · rename_i hb
      cases hs : nonZeroSpan digits with
      | none =>
        rw [hs] at h hspan
        cases h
        exact decimalShapeOf_zero hb (Int.natAbs_eq_zero.1 (habs.trans hspan))
      | some p =>
        obtain ⟨first, last⟩ := p
        rw [hs] at h hspan
        cases h
        obtain ⟨-, -, hmeas⟩ := hspan
        exact decimalShapeOf_eq hb (habs ▸ hmeas)

theorem spellingShape_of_plain {s : Bytes} (h : Plain s) :
    spellingShape s = some (decimalShapeOf digitEstimate (spelledValue s)) := by
  obtain ⟨r, hr⟩ : ∃ r, spellingShape s = some r := by
    simp only [spellingShape, h.rest, spelledExponent, h.int, false_and, if_false]
    repeat' split
    all_goals exact ⟨_, rfl⟩
  rw [hr, spellingShape_eq hr]

/-- What `NewDecimalFromString` takes of plain spellings: those of a value that is not too large. -/
theorem newDecimalFromString_iff (lib : Shopspring) {s : Bytes} (h : Plain s) {d : Decimal} :
    newDecimalFromString lib digitEstimate s = .ok d ↔
      d = spelledValue s ∧ ∃ shape, decimalShapeOf digitEstimate d = .ok shape := by
  simp only [newDecimalFromString, readSpelling, if_neg (not_lt.2 h.short), lib.exact s h,
    checkSpelledDecimal, spellingShape_of_plain h]
  cases hshape : decimalShapeOf digitEstimate (spelledValue s) with
  | error err =>
    constructor
    · intro hok
      cases hok
    · rintro ⟨rfl, shape, hok⟩
      rw [hshape] at hok
      cases hok
  | ok shape =>
    constructor
    · intro hok
      cases hok
      exact ⟨rfl, shape, hshape⟩
    · rintro ⟨rfl, -⟩
      rfl

/-! ## The counts of a text -/

/-- The digits of a plain notation before the point, after it, and from the first that is not zero
on. -/
def shapeOfText (s : Bytes) : DecimalShape where
  whole := ((splitSpelling s).int.dropWhile (· = 48)).length
  frac := (splitSpelling s).frac.length
  significant := (((splitSpelling s).int ++ (splitSpelling s).frac).dropWhile (· = 48)).length

/-- The number of digits of a plain notation. -/
def digitsOfText (s : Bytes) : ℕ := (splitSpelling s).int.length + (splitSpelling s).frac.length

/-! ## The canonical notation -/

section Canonical

variable {d : Decimal} {n t : ℕ}

/-- The digits that the canonical notation writes, and how many of them stand after the point. -/
theorem shortest_measured (h : Measured d.coefficient.natAbs n t) :
    ∃ t', Measured (shortest d).2.natAbs n t' ∧ (-(shortest d).1 + t' : ℤ) = d.exponent + t ∧
      ((shortest d).1 = 0 ∨ t' = 0) := by
  obtain ⟨t', hmeas, hexp⟩ := measured_of_value_eq (value_shortest d) h
  refine ⟨t', hmeas, hexp, ?_⟩
  have hlast := (shorten_spec (-d.exponent).toNat (d.coefficient * 10 ^ d.exponent.toNat)).2.2
  change (shortest d).1 = 0 ∨ (shortest d).2 % 10 ≠ 0 at hlast
  refine hlast.imp_right fun hlast => ?_
  obtain ⟨q, hq, -⟩ := hmeas
  rcases Nat.eq_zero_or_pos t' with h0 | hpos
  · exact h0
  · obtain ⟨j, rfl⟩ := Nat.exists_eq_add_of_le hpos
    have hdvd : 10 ∣ (shortest d).2.natAbs := ⟨q * 10 ^ j, by rw [hq]; ring⟩
    omega

/-- The digits before the point: those of the number less the places. -/
theorem whole_bounds {m l k : ℕ} (hle : 10 ^ l ≤ m * 10) (hlt : m < 10 ^ l) :
    (m / 10 ^ k = 0 ∧ l ≤ k) ∨
      (k < l ∧ 10 ^ (l - k) ≤ m / 10 ^ k * 10 ∧ m / 10 ^ k < 10 ^ (l - k)) := by
  rcases Nat.lt_or_ge k l with hkl | hlk
  · refine Or.inr ⟨hkl, ?_, ?_⟩
    · obtain ⟨j, rfl⟩ := Nat.exists_eq_add_of_lt hkl
      have hpow : 10 ^ j ≤ m / 10 ^ k := by
        rw [Nat.le_div_iff_mul_le (by positivity), ← pow_add]
        rw [pow_succ, show k + j = j + k by omega] at hle
        omega
      rw [show k + j + 1 - k = j + 1 by omega, pow_succ]
      omega
    · rw [Nat.div_lt_iff_lt_mul (by positivity), ← pow_add, Nat.sub_add_cancel hkl.le]
      exact hlt
  · exact Or.inl ⟨Nat.div_eq_of_lt (lt_of_lt_of_le hlt (Nat.pow_le_pow_right (by norm_num) hlk)), hlk⟩

/-- **The counts of the canonical notation** are those of the significant digits and the place of the
last of them. -/
theorem shapeOfText_canonical (h : Measured d.coefficient.natAbs n t) :
    shapeOfText (canonicalSpelling d) = shapeOf n (d.exponent + t) ∧
      digitsOfText (canonicalSpelling d) = (shapeOf n (d.exponent + t)).digits := by
  obtain ⟨t', hmeas, hexp, hlast⟩ := shortest_measured h
  have hpos := h.pos
  unfold canonicalSpelling
  generalize (shortest d).1 = k at hexp hlast ⊢
  generalize (shortest d).2 = z at hmeas ⊢
  have hsplit := splitSpelling_decText k z
  set m := z.natAbs
  have hfrac : (toBytes (padDigits k (m % 10 ^ k))).length = k := by simp [toBytes]
  have hsig : ((toBytes (natText (m / 10 ^ k)) ++ toBytes (padDigits k (m % 10 ^ k))).dropWhile
      (· = 48)).length = n + t' := by
    refine length_dropWhile_eq ?_ (by rw [numeral_parts]; exact hmeas.le)
      (by rw [numeral_parts]; exact hmeas.lt)
    intro c hc
    rcases List.mem_append.1 hc with hc | hc
    · exact isDigitByte_of_mem_natText hc
    · exact isDigitByte_of_mem_padDigits hc
  have hwhole : ((toBytes (natText (m / 10 ^ k))).dropWhile (· = 48)).length = n + t' - k ∧
      (toBytes (natText (m / 10 ^ k))).length = max (n + t' - k) 1 := by
    rcases whole_bounds (k := k) hmeas.le hmeas.lt with ⟨hzero, hle⟩ | ⟨hlt, hlow, hup⟩
    · rw [hzero, Nat.sub_eq_zero_of_le hle]
      exact ⟨by decide, by decide⟩
    · refine ⟨length_dropWhile_eq (fun c hc => isDigitByte_of_mem_natText hc)
        (by rwa [numeral_natText]) (by rwa [numeral_natText]), ?_⟩
      rw [length_natText_eq hlow hup]
      omega
  refine ⟨?_, ?_⟩
  · simp only [shapeOfText, hsplit, hsig, hwhole.1, hfrac, shapeOf]
    congr 1
    · omega
    · omega
    · split <;> omega
  · simp only [digitsOfText, hsplit, hwhole.2, hfrac, DecimalShape.digits, shapeOf]
    omega

theorem canonicalSpelling_zero (h : d.coefficient = 0) : canonicalSpelling d = ascii "0" := by
  have hzero : ∀ k, shorten k 0 = (0, 0) := by
    intro k
    induction k with
    | zero => rfl
    | succ k ih => rw [shorten, if_pos (by decide), Int.zero_ediv, ih]
  rw [canonicalSpelling, shortest, h, zero_mul, hzero]
  decide

/-- Refuse a value of which the exponent or the notation is too long, and else count the digits of
its notation. -/
def trueShape (d : Decimal) : Except Bytes DecimalShape :=
  if Unbounded d.exponent ∨ maxDecimalDigits < digitsOfText (canonicalSpelling d) then
    .error errDecimalTooLarge
  else .ok (shapeOfText (canonicalSpelling d))

theorem decimalShapeOf_eq_trueShape (d : Decimal) :
    decimalShapeOf digitEstimate d = trueShape d := by
  unfold trueShape
  by_cases hb : Unbounded d.exponent
  · rw [decimalShapeOf, if_pos hb, if_pos (Or.inl hb)]
  · by_cases hzero : d.coefficient = 0
    · have hdigits : ¬ (Unbounded d.exponent ∨ maxDecimalDigits < digitsOfText (ascii "0")) :=
        not_or.2 ⟨hb, by decide⟩
      rw [decimalShapeOf_zero hb hzero, canonicalSpelling_zero hzero, if_neg hdigits]
      decide
    · have hmeas := measured_trimmedLen (Int.natAbs_ne_zero.2 hzero)
      obtain ⟨hshape, hdigits⟩ := shapeOfText_canonical hmeas
      rw [decimalShapeOf_eq hb hmeas, checkedShape, hshape, hdigits]
      simp only [hb, false_or]

end Canonical

/-- **The two measures of a decimal agree, and are true**: a text that `spellingShape` takes for a
plain spelling measures as the value it spells does, and both give the counts of the value's
canonical notation, or refuse it for its exponent or the length of that notation. -/
theorem spellingShape_true_shape (s : Bytes) (r : Except Bytes DecimalShape)
    (h : spellingShape s = some r) :
    decimalShapeOf digitEstimate (spelledValue s) = r ∧
      (∀ shape, r = .ok shape → shape = shapeOfText (canonicalSpelling (spelledValue s))) ∧
      (r = .error errDecimalTooLarge ↔ Unbounded (spelledValue s).exponent ∨
        maxDecimalDigits < digitsOfText (canonicalSpelling (spelledValue s))) ∧
      ∀ err, r = .error err → err = errDecimalTooLarge := by
  have heq := spellingShape_eq h
  refine ⟨heq, ?_⟩
  rw [decimalShapeOf_eq_trueShape, trueShape] at heq
  subst heq
  split
  · rename_i hlarge
    refine ⟨fun shape hs => (nomatch hs), ⟨fun _ => hlarge, fun _ => rfl⟩, fun err he => ?_⟩
    cases he
    rfl
  · rename_i hsmall
    refine ⟨fun shape hs => ?_, ⟨fun he => (nomatch he), fun hl => absurd hl hsmall⟩,
      fun err he => (nomatch he)⟩
    cases hs
    rfl

theorem spellingShape_true_shape_price :
    spellingShape (ascii "-0012.3400e1") = some (.ok ⟨3, 1, 4⟩) ∧
      decimalShapeOf digitEstimate (spelledValue (ascii "-0012.3400e1")) = .ok ⟨3, 1, 4⟩ := by
  have h : spellingShape (ascii "-0012.3400e1") = some (.ok ⟨3, 1, 4⟩) := by decide +kernel
  exact ⟨h, (spellingShape_true_shape _ _ h).1⟩

/-! ## What the guard lets through -/

section Guard

variable {d : Decimal} {p s : ℕ}

/-- The digits fit the column when the value is a whole number of units, and of few enough of them. -/
theorem fits_iff {m n t : ℕ} (h : Measured m n t) (e : ℤ) (hs : s ≤ p) :
    ((n + (e + t)).toNat : ℤ) ≤ (p : ℤ) - s ∧ ((-(e + t)).toNat : ℤ) ≤ s ↔
      ∃ k : ℕ, (m : ℚ) * 10 ^ e * 10 ^ s = k ∧ k < 10 ^ p := by
  obtain ⟨q, hq, hdvd, hle, hlt⟩ := h.mul_zpow e
  have hscaled : (m : ℚ) * 10 ^ e * 10 ^ s = q * 10 ^ (e + t + s) := by
    rw [hq, mul_assoc, ← zpow_natCast, ← zpow_add₀ (by norm_num)]
  rw [hscaled]
  constructor
  · rintro ⟨hwhole, hfrac⟩
    obtain ⟨j, hj⟩ := Int.eq_ofNat_of_zero_le (show 0 ≤ e + t + s by omega)
    refine ⟨q * 10 ^ j, by rw [hj]; push_cast; rfl, ?_⟩
    calc q * 10 ^ j < 10 ^ n * 10 ^ j := Nat.mul_lt_mul_of_pos_right hlt (by positivity)
      _ = 10 ^ (n + j) := (pow_add ..).symm
      _ ≤ 10 ^ p := Nat.pow_le_pow_right (by norm_num) (by omega)
  · rintro ⟨k, hk, hkp⟩
    have hfrac : 0 ≤ e + t + s := by
      -- otherwise the last significant digit would be a zero
      by_contra hneg
      obtain ⟨j, hj⟩ := Int.eq_ofNat_of_zero_le (show 0 ≤ -(e + t + s) - 1 by omega)
      rw [show e + t + s = -((j : ℤ) + 1) by omega, zpow_neg] at hk
      have hten : (10 : ℚ) ^ ((j : ℤ) + 1) = 10 ^ (j + 1) := by exact_mod_cast rfl
      rw [hten, ← div_eq_mul_inv, div_eq_iff (by positivity)] at hk
      have hnat : q = k * 10 ^ (j + 1) := by exact_mod_cast hk
      exact hdvd ⟨k * 10 ^ j, by rw [hnat]; ring⟩
    obtain ⟨j, hj⟩ := Int.eq_ofNat_of_zero_le hfrac
    rw [hj] at hk
    have hnat : q * 10 ^ j = k := by exact_mod_cast hk
    have hlen : n + j ≤ p := by
      refine pow_le_of_lt (c := k) ?_ hkp
      calc 10 ^ (n + j) = 10 ^ n * 10 ^ j := pow_add ..
        _ ≤ q * 10 * 10 ^ j := Nat.mul_le_mul_right _ hle
        _ = k * 10 := by rw [← hnat]; ring
    omega

/-- `d · 10 ^ s` is an integer below `10 ^ p` in absolute value. -/
def FitsColumn (d : Decimal) (p s : ℕ) : Prop :=
  ∃ k : ℤ, d.value * 10 ^ s = k ∧ |k| < 10 ^ p

theorem fitsColumn_iff_abs :
    FitsColumn d p s ↔
      ∃ k : ℕ, (d.coefficient.natAbs : ℚ) * 10 ^ d.exponent * 10 ^ s = k ∧ k < 10 ^ p := by
  have hpos : (0 : ℚ) < 10 ^ s := by positivity
  have habs : |d.value * 10 ^ s| = (d.coefficient.natAbs : ℚ) * 10 ^ d.exponent * 10 ^ s := by
    rw [abs_mul, abs_value, abs_of_pos hpos]
  rw [← habs]
  constructor
  · rintro ⟨k, hk, hlt⟩
    refine ⟨k.natAbs, by rw [hk, Nat.cast_natAbs, Int.cast_abs], ?_⟩
    rw [← Int.natCast_natAbs] at hlt
    exact_mod_cast hlt
  · rintro ⟨k, hk, hlt⟩
    have hlt' : (k : ℤ) < 10 ^ p := by exact_mod_cast hlt
    rcases abs_choice (d.value * 10 ^ s) with hsign | hsign
    · refine ⟨k, ?_, by rwa [abs_of_nonneg (Int.natCast_nonneg k)]⟩
      rw [← hsign, hk, Int.cast_natCast]
    · refine ⟨-k, ?_, by rwa [abs_neg, abs_of_nonneg (Int.natCast_nonneg k)]⟩
      rw [Int.cast_neg, Int.cast_natCast, ← hk, hsign, neg_neg]

/-- The decimal exponent of the leading digit. -/
theorem log_value {n t : ℕ} (h : Measured d.coefficient.natAbs n t) :
    Int.log 10 |d.value| = n + (d.exponent + t) - 1 := by
  obtain ⟨q, hq, hdvd, hle, hlt⟩ := h.mul_zpow d.exponent
  rw [abs_value, hq]
  generalize d.exponent + (t : ℤ) = e
  have hten : (0 : ℚ) < 10 ^ e := by positivity
  have hqpos : 0 < q := Nat.pos_of_ne_zero fun h0 => hdvd (h0 ▸ dvd_zero 10)
  have hpos : (0 : ℚ) < q * 10 ^ e := by positivity
  have hlt' : (q : ℚ) < 10 ^ n := by exact_mod_cast hlt
  have hle' : (10 : ℚ) ^ n ≤ q * 10 := by exact_mod_cast hle
  have hup : (q : ℚ) * 10 ^ e < ((10 : ℕ) : ℚ) ^ (n + e) := by
    rw [Nat.cast_ofNat, zpow_add₀ (by norm_num), zpow_natCast]
    exact mul_lt_mul_of_pos_right hlt' hten
  have hlow : ((10 : ℕ) : ℚ) ^ (n + e - 1) ≤ q * 10 ^ e := by
    rw [Nat.cast_ofNat, zpow_sub_one₀ (by norm_num), zpow_add₀ (by norm_num), zpow_natCast,
      ← div_eq_mul_inv, div_le_iff₀ (by norm_num)]
    calc (10 : ℚ) ^ n * 10 ^ e ≤ q * 10 * 10 ^ e := mul_le_mul_of_nonneg_right hle' hten.le
      _ = q * 10 ^ e * 10 := by ring
  have h₁ := (Int.lt_zpow_iff_log_lt (by norm_num) hpos).1 hup
  have h₂ := (Int.zpow_le_iff_le_log (by norm_num) hpos).1 hlow
  omega

theorem magnitude_shapeOf {n : ℕ} (hn : 0 < n) (e : ℤ) :
    (if (shapeOf n e).whole = 0 then ((shapeOf n e).significant : ℤ) - (shapeOf n e).frac - 1
      else (shapeOf n e).whole - 1) = n + e - 1 := by
  by_cases hwhole : (n + e).toNat = 0
  · have hneg : e < 0 := by omega
    simp only [shapeOf, hwhole, hneg, if_true]
    omega
  · simp only [shapeOf, hwhole, if_false]
    omega

theorem significant_shapeOf_ne_zero {n : ℕ} (hn : 0 < n) (e : ℤ) :
    (shapeOf n e).significant ≠ 0 := by
  simp only [shapeOf]
  split <;> omega

theorem error_of_decimalShapeOf {err : Bytes} (h : decimalShapeOf digitEstimate d = .error err) :
    err ≠ [] := by
  rw [decimalShapeOf_eq_trueShape, trueShape] at h
  split at h
  · cases h
    decide
  · cases h

/-- What the guard asks of a shape: the digits fit the column, and for SQLite they are few and the
leading one is in range. -/
theorem storageProblem_eq_nil_iff (sqlite : Bool) (hp : 0 < p) :
    decimalStorageProblem digitEstimate d p s sqlite = [] ↔
      ∃ shape, decimalShapeOf digitEstimate d = .ok shape ∧ (shape.significant = 0 ∨
        ((shape.whole : ℤ) ≤ (p : ℤ) - s ∧ (shape.frac : ℤ) ≤ s) ∧
        (sqlite = true → shape.significant ≤ sqliteDecimalDigits ∧
          |(if shape.whole = 0 then (shape.significant : ℤ) - shape.frac - 1 else shape.whole - 1)| ≤
            sqliteDecimalMaxExponent)) := by
  unfold decimalStorageProblem
  cases hshape : decimalShapeOf digitEstimate d with
  | error err =>
    simp only [reduceCtorEq, false_and, exists_false, iff_false]
    exact error_of_decimalShapeOf hshape
  | ok shape =>
    have hp' : (0 : ℤ) < p := by exact_mod_cast hp
    simp only [Except.ok.injEq, exists_eq_left', hp', true_and]
    by_cases hsig : shape.significant = 0
    · simp only [hsig, if_true, true_or]
    · simp only [hsig, if_false, false_or]
      split
      · rename_i hwhole
        simp [ascii, toBytes]
        omega
      · split
        · rename_i hwhole hfrac
          simp [ascii, toBytes]
          omega
        · rename_i hwhole hfrac
          cases sqlite with
          | false => simp; omega
          | true =>
            simp only [true_and, forall_const]
            split
            · rename_i hdigits
              simp [ascii, toBytes]
              omega
            · rename_i hdigits
              generalize (if shape.whole = 0 then (shape.significant : ℤ) - shape.frac - 1
                else shape.whole - 1) = magnitude
              split
              · rename_i hmag
                simp [ascii, toBytes, abs_le]
                omega
              · rename_i hmag
                simp [abs_le]
                omega

/-- **What the guard lets through**: the values of bounded exponent and notation that the column
holds exactly, and for SQLite of these only zero and those with few significant digits and a leading
digit in range. -/
theorem storageProblem_empty_iff (d : Decimal) (p s : ℕ) (hp : 0 < p) (hs : s ≤ p) :
    (decimalStorageProblem digitEstimate d p s false = [] ↔
      |d.exponent| ≤ 1000 ∧ digitsOfText (canonicalSpelling d) ≤ 1000 ∧ FitsColumn d p s) ∧
    (decimalStorageProblem digitEstimate d p s true = [] ↔
      (|d.exponent| ≤ 1000 ∧ digitsOfText (canonicalSpelling d) ≤ 1000 ∧ FitsColumn d p s) ∧
      (d.value = 0 ∨
        (shapeOfText (canonicalSpelling d)).significant ≤ sqliteDecimalDigits ∧
        |Int.log 10 (|d.value|)| ≤ sqliteDecimalMaxExponent)) := by
  have hbound : |d.exponent| ≤ 1000 ↔ ¬ Unbounded d.exponent := by
    rw [abs_le, Unbounded, maxDecimalDigits]
    omega
  have hsize : ∀ shape, decimalShapeOf digitEstimate d = .ok shape ↔
      |d.exponent| ≤ 1000 ∧ digitsOfText (canonicalSpelling d) ≤ 1000 ∧
        shape = shapeOfText (canonicalSpelling d) := by
    intro shape
    rw [decimalShapeOf_eq_trueShape, trueShape, hbound]
    split
    · rename_i hlarge
      simp only [reduceCtorEq, false_iff]
      rintro ⟨hb, hdigits, -⟩
      exact hlarge.elim hb (not_lt.2 hdigits)
    · rename_i hsmall
      rw [not_or, not_lt] at hsmall
      rw [Except.ok.injEq, eq_comm]
      exact ⟨fun h => ⟨hsmall.1, hsmall.2, h⟩, fun h => h.2.2⟩
  have hcore : ∀ sqlite, decimalStorageProblem digitEstimate d p s sqlite = [] ↔
      (|d.exponent| ≤ 1000 ∧ digitsOfText (canonicalSpelling d) ≤ 1000 ∧ FitsColumn d p s) ∧
      (sqlite = true → d.value = 0 ∨
        (shapeOfText (canonicalSpelling d)).significant ≤ sqliteDecimalDigits ∧
        |Int.log 10 (|d.value|)| ≤ sqliteDecimalMaxExponent) := by
    intro sqlite
    rw [storageProblem_eq_nil_iff sqlite hp]
    simp only [hsize, and_assoc, exists_and_left, exists_eq_left]
    refine and_congr_right fun _ => and_congr_right fun _ => ?_
    by_cases hzero : d.coefficient = 0
    · have hvalue : d.value = 0 := value_eq_zero_iff.2 hzero
      have hfits : FitsColumn d p s := ⟨0, by simp [hvalue], by simp⟩
      have hsig : (shapeOfText (canonicalSpelling d)).significant = 0 := by
        rw [canonicalSpelling_zero hzero]
        decide
      simp [hvalue, hfits, hsig]
    · obtain ⟨n, t, hmeas⟩ : ∃ n t, Measured d.coefficient.natAbs n t :=
        ⟨_, _, measured_trimmedLen (Int.natAbs_ne_zero.2 hzero)⟩
      have hvalue : d.value ≠ 0 := fun h => hzero (value_eq_zero_iff.1 h)
      have hpos := hmeas.pos
      obtain ⟨hshape, -⟩ := shapeOfText_canonical hmeas
      have hsig : (shapeOfText (canonicalSpelling d)).significant ≠ 0 := by
        rw [hshape]
        exact significant_shapeOf_ne_zero hpos _
      have hfits := fits_iff hmeas d.exponent hs
      rw [← fitsColumn_iff_abs] at hfits
      rw [hshape] at hsig ⊢
      rw [magnitude_shapeOf hpos, ← log_value hmeas, ← hfits]
      rw [or_iff_right hsig]
      simp only [hvalue, false_or, shapeOf, and_assoc]
  exact ⟨by simpa using hcore false, by simpa using hcore true⟩

/-- A price of four digits fits `decimal(4,2)`, and SQLite stores it. -/
theorem storageProblem_empty_price :
    (|(-2 : ℤ)| ≤ 1000 ∧ digitsOfText (canonicalSpelling ⟨-1250, -2⟩) ≤ 1000 ∧
      FitsColumn ⟨-1250, -2⟩ 4 2) ∧
    decimalStorageProblem digitEstimate ⟨-1250, -2⟩ (4 : ℕ) (2 : ℕ) true = [] :=
  ⟨(storageProblem_empty_iff ⟨-1250, -2⟩ 4 2 (by decide) (by decide)).1.1 (by decide +kernel),
    by decide +kernel⟩

end Guard

end Gombit.Types
