import Gombit.Foundations.ByteText
import Gombit.Foundations.Significant

/-!
# Decimals

The size rule for decimals. A value is measured by its coefficient and exponent before it is written
(`DecimalShapeOf`, `DecimalStorageProblem`), and by its text when it is read (`spellingShape`, behind
`Scan`, `NewDecimalFromString` and `UnmarshalJSON`).

* `decimalShapeOf_measured`, `spellingShape_decText`: both sides measure the significant digits and
  where the last of them stands, which the value alone decides.
* `stored_is_readable`: what the guard lets through can be read back, in the shortest spelling and in
  the one that a column of `scale` places pads with zeros.
-/

namespace Gombit.Types

open List

/-! ## The size rule -/

/-- A decimal: `coefficient · 10 ^ exponent`. -/
structure Decimal where
  coefficient : ℤ
  exponent : ℤ
  deriving DecidableEq

/-- The number a decimal stands for. -/
def Decimal.value (d : Decimal) : ℚ := d.coefficient * 10 ^ d.exponent

def maxDecimalDigits : ℕ := 1000

def maxDecimalSpelling : ℕ := 3 * maxDecimalDigits + 32

/-- `DecimalShape`. -/
structure DecimalShape where
  whole : ℕ := 0
  frac : ℕ := 0
  significant : ℕ := 0
  deriving DecidableEq

/-- `DecimalShape.Digits`. -/
def DecimalShape.digits (s : DecimalShape) : ℕ := max s.whole 1 + s.frac

def errDecimalTooLarge : Bytes := ascii "has more than 1000 digits"

/-- The shape of `n` significant digits of which the last stands for `10 ^ exponent`. -/
def shapeOf (n : ℕ) (exponent : ℤ) : DecimalShape where
  whole := (n + exponent).toNat
  frac := (-exponent).toNat
  significant := if exponent < 0 then n else (n + exponent).toNat

/-- Refuse a shape of too many digits. -/
def checkedShape (n : ℕ) (exponent : ℤ) : Except Bytes DecimalShape :=
  if maxDecimalDigits < (shapeOf n exponent).digits then .error errDecimalTooLarge
  else .ok (shapeOf n exponent)

/-- The exponent is beyond the bound. -/
def Unbounded (exponent : ℤ) : Prop :=
  (maxDecimalDigits : ℤ) < exponent ∨ exponent < -(maxDecimalDigits : ℤ)

instance (exponent : ℤ) : Decidable (Unbounded exponent) := inferInstanceAs (Decidable (_ ∨ _))

section Estimate

-- The estimate of a coefficient's digits from its bit length, a product of floats. It can only refuse
-- a value, so nothing is assumed about it.
variable (estimate : ℕ → ℕ)

/-- The significant digits of a coefficient and the zeros after them, counted on the number when it
fits 64 bits and on its text otherwise. -/
def coefficientDigits (c : ℕ) : Option (ℕ × ℕ) :=
  if c < 2 ^ 64 then some (countDigits 20 (dropZeros 20 c).1, (dropZeros 20 c).2)
  else if 3 * maxDecimalDigits + 1 < estimate c.size then none
  else
    let digits := toBytes (natText c)
    some (trimmedLen digits.reverse, digits.length - trimmedLen digits.reverse)

/-- `DecimalShapeOf`. -/
def decimalShapeOf (d : Decimal) : Except Bytes DecimalShape :=
  if Unbounded d.exponent then .error errDecimalTooLarge
  else if d.coefficient = 0 then .ok {}
  else match coefficientDigits estimate d.coefficient.natAbs with
  | none => .error errDecimalTooLarge
  | some (n, zeros) => checkedShape n (d.exponent + zeros)

/-- `CheckDecimalSize`. -/
def checkDecimalSize (d : Decimal) : Except Bytes Unit := (decimalShapeOf estimate d).map fun _ => ()

def sqliteDecimalDigits : ℕ := 15

def sqliteDecimalMaxExponent : ℤ := 307

/-- `%d`. -/
def decimalText (n : ℤ) : Bytes := toBytes (intText n)

/-- `DecimalStorageProblem`: the empty text when the value would be stored exactly. -/
def decimalStorageProblem (d : Decimal) (precision scale : ℤ) (sqlite : Bool) : Bytes :=
  match decimalShapeOf estimate d with
  | .error err => err
  | .ok shape =>
    if shape.significant = 0 then []
    else if 0 < precision ∧ precision - scale < shape.whole then
      ascii "does not fit decimal(" ++ decimalText precision ++ ascii "," ++ decimalText scale ++
        ascii "): at most " ++ decimalText (precision - scale) ++
        ascii " digits before the decimal point"
    else if 0 < precision ∧ scale < shape.frac then
      ascii "does not fit decimal(" ++ decimalText precision ++ ascii "," ++ decimalText scale ++
        ascii "): at most " ++ decimalText scale ++ ascii " digits after the decimal point"
    else if sqlite ∧ sqliteDecimalDigits < shape.significant then
      ascii "has " ++ decimalText shape.significant ++ ascii " digits; SQLite stores at most " ++
        decimalText sqliteDecimalDigits ++ ascii " exactly"
    else
      let magnitude : ℤ := if shape.whole = 0 then shape.significant - shape.frac - 1
        else shape.whole - 1
      if sqlite ∧ (sqliteDecimalMaxExponent < magnitude ∨ magnitude < -sqliteDecimalMaxExponent) then
        ascii "is outside the range SQLite stores exactly (about 1e-" ++
          decimalText sqliteDecimalMaxExponent ++ ascii " to 1e" ++
          decimalText sqliteDecimalMaxExponent ++ ascii ")"
      else []

end Estimate

/-! ## Reading -/

/-- The parts of a spelling: a sign, digits, digits after a point, and what follows. -/
structure Spelling where
  negative : Bool
  int : Bytes
  frac : Bytes
  rest : Bytes
  deriving DecidableEq

/-- A sign and what follows it. -/
def splitSign : Bytes → Bool × Bytes
  | [] => (false, [])
  | c :: s => if c = 43 then (false, s) else if c = 45 then (true, s) else (false, c :: s)

/-- The digits after a point, if there is one, and what follows them. -/
def splitFrac : Bytes → Bytes × Bytes
  | [] => ([], [])
  | c :: s =>
    if c = 46 then (s.takeWhile isDigitByte, s.dropWhile isDigitByte) else ([], c :: s)

def splitSpelling (s : Bytes) : Spelling :=
  let signed := splitSign s
  let int := signed.2.takeWhile isDigitByte
  let frac := splitFrac (signed.2.dropWhile isDigitByte)
  { negative := signed.1, int, frac := frac.1, rest := frac.2 }

/-- The exponent at the end of a spelling: nothing, or `e`, a sign and up to nine digits. -/
def spelledExponent : Bytes → Option ℤ
  | [] => some 0
  | c :: s =>
    if c = 101 ∨ c = 69 then
      let signed := splitSign s
      if signed.2 ≠ [] ∧ signed.2.length ≤ 9 ∧ signed.2.all isDigitByte then
        some (if signed.1 then -(numeral signed.2 : ℤ) else numeral signed.2)
      else none
    else none

/-- `spellingShape`: `none` for a text that is no plain spelling. -/
def spellingShape (s : Bytes) : Option (Except Bytes DecimalShape) :=
  let parts := splitSpelling s
  if parts.int = [] ∧ parts.frac = [] then none
  else match spelledExponent parts.rest with
  | none => none
  | some exp =>
    let exponent := exp - parts.frac.length
    if Unbounded exponent then some (.error errDecimalTooLarge)
    else
      let digits := parts.int ++ parts.frac
      match nonZeroSpan digits with
      | none => some (.ok {})
      | some (first, last) =>
        some (checkedShape (last - first + 1) (exponent + (digits.length - 1 - last : ℕ)))

/-- The decimal that a plain spelling spells: its digits without the point, and the written exponent
less the digits after the point. -/
def spelledValue (s : Bytes) : Decimal :=
  let parts := splitSpelling s
  let digits : ℤ := numeral (parts.int ++ parts.frac)
  { coefficient := if parts.negative then -digits else digits
    exponent := (spelledExponent parts.rest).getD 0 - parts.frac.length }

/-- A spelling without an exponent that is not too long. -/
structure Plain (s : Bytes) : Prop where
  short : s.length ≤ maxDecimalSpelling
  int : (splitSpelling s).int ≠ []
  rest : (splitSpelling s).rest = []

/-- `shopspring/decimal`: what `NewFromString`, `Scan` and `UnmarshalJSON` read in a text. A plain
spelling, for `UnmarshalJSON` between quotation marks, is read as its exact value, with as many places
as it has. -/
structure Shopspring where
  newFromString : Bytes → Except Bytes Decimal
  scan : Bytes → Except Bytes Decimal
  unmarshalJSON : Bytes → Except Bytes Decimal
  exact : ∀ s, Plain s → newFromString s = .ok (spelledValue s)
  scan_exact : ∀ s, Plain s → scan s = .ok (spelledValue s)
  unmarshalJSON_exact : ∀ s, Plain s → unmarshalJSON (34 :: (s ++ [34])) = .ok (spelledValue s)

/-- A value that a database driver hands over: a finite float as the decimal it is read as, a
non-finite one as it prints, an integer, a text or bytes. -/
inductive ScanValue where
  | float (d : Decimal)
  | nonFinite (printed : Bytes)
  | integer (n : ℤ)
  | text (s : Bytes)
  | bytes (s : Bytes)
  deriving DecidableEq

section Readers

variable (lib : Shopspring) (estimate : ℕ → ℕ)

/-- `checkSpelledDecimal`. -/
def checkSpelledDecimal (spelling : Bytes) (parsed : Decimal) : Except Bytes Unit :=
  match spellingShape spelling with
  | some shape => shape.map fun _ => ()
  | none => checkDecimalSize estimate parsed

/-- An error about a decimal. -/
def decimalError (err : Bytes) : Bytes := ascii "decimal " ++ err

/-- Parse a text that is not too long and check the size of what it spells. -/
def readSpelling (text spelling : Bytes) (parsed : Except Bytes Decimal) : Except Bytes Decimal :=
  if maxDecimalSpelling < text.length then .error (decimalError errDecimalTooLarge)
  else match parsed with
  | .error err => .error err
  | .ok d => match checkSpelledDecimal estimate spelling d with
    | .error err => .error (decimalError err)
    | .ok () => .ok d

/-- A decimal that did not come from a text. -/
def readValue (d : Decimal) : Except Bytes Decimal :=
  match checkDecimalSize estimate d with
  | .error err => .error (decimalError err)
  | .ok () => .ok d

/-- `Scan`. -/
def scan : ScanValue → Except Bytes Decimal
  | .nonFinite printed => .error (ascii "decimal: cannot scan non-finite " ++ printed)
  | .float d => readValue estimate d
  | .integer n => readValue estimate ⟨n, 0⟩
  | .text s => readSpelling estimate s s (lib.scan s)
  | .bytes s => readSpelling estimate s s (lib.scan s)

/-- `NewDecimalFromString`. -/
def newDecimalFromString (s : Bytes) : Except Bytes Decimal :=
  readSpelling estimate s s (lib.newFromString s)

/-- `UnmarshalJSON` into `d`. -/
def unmarshalJSON (d : Decimal) (b : Bytes) : Except Bytes Decimal :=
  if b = ascii "null" then .ok d
  else
    let spelling := if 2 ≤ b.length ∧ b.head? = some 34 ∧ b.getLast? = some 34 then
      (b.drop 1).dropLast else b
    readSpelling estimate b spelling (lib.unmarshalJSON b)

/-- Every reader takes the text for the number. -/
def ReadBack (text : Bytes) (q : ℚ) : Prop :=
  (∃ r, scan lib estimate (.text text) = .ok r ∧ r.value = q) ∧
  (∃ r, scan lib estimate (.bytes text) = .ok r ∧ r.value = q) ∧
  (∃ r, newDecimalFromString lib estimate text = .ok r ∧ r.value = q) ∧
  ∀ d, ∃ r, unmarshalJSON lib estimate d (34 :: (text ++ [34])) = .ok r ∧ r.value = q

end Readers

/-! ## Spellings -/

/-- The places of a number written with `k` places, without the zeros at its end. -/
def shorten : ℕ → ℤ → ℕ × ℤ
  | 0, m => (0, m)
  | k + 1, m => if m % 10 = 0 then shorten k (m / 10) else (k + 1, m)

/-- The places and the digits of a decimal, no place more than needed. -/
def shortest (d : Decimal) : ℕ × ℤ :=
  shorten (-d.exponent).toNat (d.coefficient * 10 ^ d.exponent.toNat)

/-- `String`: digits, and a point with further digits if there are any to write. -/
def canonicalSpelling (d : Decimal) : Bytes := toBytes (decText (shortest d).1 (shortest d).2)

/-- A spelling with zeros up to `places` after the point. -/
def padSpelling (places : ℕ) (text : Bytes) : Bytes :=
  match cut 46 text with
  | none => if places = 0 then text else text ++ 46 :: List.replicate places 48
  | some (_, frac) => text ++ List.replicate (places - frac.length) 48

/-! ## Measuring a value -/

variable {estimate : ℕ → ℕ}

theorem measured_coefficientDigits {c n zeros : ℕ} (hc : c ≠ 0)
    (h : coefficientDigits estimate c = some (n, zeros)) : Measured c n zeros := by
  unfold coefficientDigits at h
  split at h
  · rename_i hlt
    cases h
    exact measured_countDigits hc (lt_trans hlt (by norm_num))
  · split_ifs at h
    cases h
    exact measured_trimmedLen hc

variable {shape : DecimalShape}

theorem digits_le_of_checkedShape {n : ℕ} {exponent : ℤ} (h : checkedShape n exponent = .ok shape) :
    shape = shapeOf n exponent ∧ (shapeOf n exponent).digits ≤ maxDecimalDigits := by
  unfold checkedShape at h
  split_ifs at h
  cases h
  exact ⟨rfl, by omega⟩

/-- What a value's shape says: the exponent is bounded, and the shape is that of the significant
digits. -/
theorem decimalShapeOf_measured {d : Decimal} (h : decimalShapeOf estimate d = .ok shape) :
    ¬ Unbounded d.exponent ∧ (d.coefficient = 0 ∧ shape = {} ∨
      ∃ n t, Measured d.coefficient.natAbs n t ∧ shape = shapeOf n (d.exponent + t) ∧
        (shapeOf n (d.exponent + t)).digits ≤ maxDecimalDigits) := by
  unfold decimalShapeOf at h
  split at h
  · cases h
  · rename_i hb
    refine ⟨hb, ?_⟩
    split at h
    · rename_i hzero
      cases h
      exact Or.inl ⟨hzero, rfl⟩
    · rename_i hzero
      split at h
      · cases h
      · rename_i n t hdigits
        have hmeas := measured_coefficientDigits (Int.natAbs_ne_zero.2 hzero) hdigits
        exact Or.inr ⟨n, t, hmeas, digits_le_of_checkedShape h⟩

/-! ## Measuring a text -/

theorem takeWhile_append_of_all {α : Type*} {p : α → Bool} {s t : List α}
    (hs : ∀ a ∈ s, p a = true) (ht : ∀ a ∈ t.head?, p a = false) :
    (s ++ t).takeWhile p = s ∧ (s ++ t).dropWhile p = t := by
  rw [takeWhile_append_of_pos hs, dropWhile_append_of_pos hs]
  cases t with
  | nil => simp
  | cons a t =>
    have ha := ht a (by simp)
    simp [ha]

/-- The parts of a number written with `k` places. -/
theorem splitSpelling_decText (k : ℕ) (m : ℤ) :
    splitSpelling (toBytes (decText k m)) =
      { negative := decide (m < 0), int := toBytes (natText (m.natAbs / 10 ^ k)),
        frac := toBytes (padDigits k (m.natAbs % 10 ^ k)), rest := [] } := by
  set int := toBytes (natText (m.natAbs / 10 ^ k)) with hint
  set frac := toBytes (padDigits k (m.natAbs % 10 ^ k)) with hfrac
  set tail : Bytes := if k = 0 then [] else 46 :: frac with htail
  have htext : toBytes (decText k m) = (if m < 0 then [45] else []) ++ (int ++ tail) := by
    rw [decText, signText, htail, hint, hfrac]
    by_cases hm : m < 0 <;> by_cases hk : k = 0 <;> simp [toBytes, hm, hk]
  have hsign : splitSign (toBytes (decText k m)) = (decide (m < 0), int ++ tail) := by
    rw [htext]
    by_cases hm : m < 0
    · simp [hm, splitSign]
    · obtain ⟨c, r, hcr⟩ : ∃ c r, int = c :: r := exists_cons_of_ne_nil (by
        rw [hint]
        simpa [toBytes] using natText_ne_nil _)
      have hdigit : isDigitByte c = true := isDigitByte_of_mem_natText (hint ▸ hcr ▸ mem_cons_self)
      have hplus : c ≠ 43 := by rintro rfl; exact absurd hdigit (by decide)
      have hminus : c ≠ 45 := by rintro rfl; exact absurd hdigit (by decide)
      simp [hm, hcr, splitSign, hplus, hminus]
  have hsplit := takeWhile_append_of_all (p := isDigitByte) (s := int) (t := tail)
    (fun a ha => isDigitByte_of_mem_natText ha) (by
      rw [htail]
      split
      · simp
      · simp only [List.head?_cons, Option.mem_def, Option.some.injEq, forall_eq']
        decide)
  have hfracSplit : splitFrac tail = (frac, []) := by
    rw [htail]
    split
    · rename_i hk
      subst hk
      rfl
    · have hall := takeWhile_append_of_all (p := isDigitByte) (s := frac) (t := [])
        (fun a ha => isDigitByte_of_mem_padDigits ha) (by simp)
      rw [append_nil] at hall
      simp [splitFrac, hall.1, hall.2]
  unfold splitSpelling
  simp only [hsign, hsplit.1, hsplit.2, hfracSplit]

theorem numeral_parts (k m : ℕ) :
    numeral (toBytes (natText (m / 10 ^ k)) ++ toBytes (padDigits k (m % 10 ^ k))) = m := by
  rw [numeral_append, numeral_natText, numeral_padDigits, Nat.mod_mod]
  simp only [toBytes, length_map, length_padDigits]
  exact Nat.div_add_mod' m (10 ^ k)

/-- A number written with `k` places spells itself. -/
theorem spelledValue_decText (k : ℕ) (m : ℤ) : spelledValue (toBytes (decText k m)) = ⟨m, -k⟩ := by
  have hsign : (if m < 0 then -(m.natAbs : ℤ) else m.natAbs) = m := by split <;> omega
  simp only [spelledValue, splitSpelling_decText, numeral_parts, decide_eq_true_eq, hsign]
  simp [spelledExponent, toBytes]

/-- The shape of a text is that of the significant digits of the number it spells. -/
theorem spellingShape_decText {k : ℕ} (hk : k ≤ maxDecimalDigits) (m : ℤ) :
    (m = 0 → spellingShape (toBytes (decText k m)) = some (.ok {})) ∧
      ∀ {n t : ℕ}, Measured m.natAbs n t →
        spellingShape (toBytes (decText k m)) = some (checkedShape n (-k + t)) := by
  set digits := toBytes (natText (m.natAbs / 10 ^ k)) ++ toBytes (padDigits k (m.natAbs % 10 ^ k))
    with hdigits
  have hlen : (toBytes (padDigits k (m.natAbs % 10 ^ k))).length = k := by simp [toBytes]
  have hne : toBytes (natText (m.natAbs / 10 ^ k)) ≠ [] := by
    simpa [toBytes] using natText_ne_nil _
  have hbound : ¬ Unbounded (0 - (k : ℤ)) := by
    unfold Unbounded
    omega
  have hshape : spellingShape (toBytes (decText k m)) = match nonZeroSpan digits with
      | none => some (.ok {})
      | some (first, last) =>
        some (checkedShape (last - first + 1) (0 - k + (digits.length - 1 - last : ℕ))) := by
    unfold spellingShape
    simp only [splitSpelling_decText, hne, false_and, if_false, spelledExponent, hlen, hbound]
    rfl
  have hspan := spanMeasures_nonZeroSpan (s := digits) (by
    intro c hc
    rcases mem_append.1 hc with hc | hc
    · exact isDigitByte_of_mem_natText hc
    · exact isDigitByte_of_mem_padDigits hc)
  have hval : numeral digits = m.natAbs := numeral_parts k m.natAbs
  rw [hshape]
  cases hs : nonZeroSpan digits with
  | none =>
    rw [hs] at hspan
    refine ⟨fun _ => rfl, fun hmeas => ?_⟩
    exact absurd (hval.symm.trans hspan) hmeas.ne_zero
  | some p =>
    obtain ⟨first, last⟩ := p
    rw [hs] at hspan
    obtain ⟨-, -, hfound⟩ := hspan
    rw [hval] at hfound
    constructor
    · rintro rfl
      exact absurd rfl hfound.ne_zero
    · intro n t hmeas
      obtain ⟨hn, ht⟩ := hfound.unique hmeas
      simp only [hn, ht, zero_sub]

/-! ## What is stored can be read -/

section Readable

variable {estimate : ℕ → ℕ} {d : Decimal} {shape : DecimalShape} {k : ℕ} {m : ℤ}

theorem value_eq_zero_iff : d.value = 0 ↔ d.coefficient = 0 := by
  have hne : (10 : ℚ) ^ d.exponent ≠ 0 := zpow_ne_zero _ (by norm_num)
  simp [Decimal.value, hne]

/-- The absolute value. -/
theorem abs_value (d : Decimal) : |d.value| = (d.coefficient.natAbs : ℚ) * 10 ^ d.exponent := by
  have hpos : (0 : ℚ) < 10 ^ d.exponent := zpow_pos (by norm_num) _
  rw [Decimal.value, abs_mul, abs_of_pos hpos, Nat.cast_natAbs, Int.cast_abs]

/-- A text of the value with `k` places has the significant digits of the value. -/
theorem measured_of_value_eq (hv : (⟨m, -k⟩ : Decimal).value = d.value) {n t : ℕ}
    (h : Measured d.coefficient.natAbs n t) :
    ∃ t', Measured m.natAbs n t' ∧ (-k + t' : ℤ) = d.exponent + t := by
  have hm : m.natAbs ≠ 0 := by
    intro hzero
    rw [Int.natAbs_eq_zero] at hzero
    subst hzero
    have hd : d.value = 0 := by rw [← hv]; simp [Decimal.value]
    rw [value_eq_zero_iff] at hd
    exact h.ne_zero (by rw [hd]; rfl)
  have hmeas := measured_trimmedLen hm
  have habs : (m.natAbs : ℚ) * 10 ^ (-k : ℤ) = d.coefficient.natAbs * 10 ^ d.exponent := by
    rw [← abs_value, ← hv, abs_value]
  obtain ⟨hn, ht⟩ := hmeas.eq_of_value_eq h habs
  exact ⟨_, hn ▸ hmeas, ht⟩

section Spelled

variable (hshape : decimalShapeOf estimate d = .ok shape)
  (hv : (⟨m, -k⟩ : Decimal).value = d.value)

include hshape hv

/-- A text of the value spells zero or has no more digits than there may be. -/
theorem measured_of_shape : m = 0 ∨ ∃ n t, Measured m.natAbs n t ∧
    (shapeOf n (-k + t)).digits ≤ maxDecimalDigits := by
  obtain ⟨-, ⟨hzero, -⟩ | ⟨n, t, hmeas, -, hdigits⟩⟩ := decimalShapeOf_measured hshape
  · exact .inl ((value_eq_zero_iff (d := ⟨m, -k⟩)).1 (by rw [hv, value_eq_zero_iff, hzero]))
  · obtain ⟨t', hmeas', hexp⟩ := measured_of_value_eq hv hmeas
    exact .inr ⟨n, t', hmeas', hexp ▸ hdigits⟩

variable (hk : k ≤ maxDecimalDigits)

include hk

/-- A text of the value with not too many places passes the size rule. -/
theorem checkSpelledDecimal_decText (parsed : Decimal) :
    checkSpelledDecimal estimate (toBytes (decText k m)) parsed = .ok () := by
  obtain hm | ⟨n, t, hmeas, hdigits⟩ := measured_of_shape hshape hv
  · rw [checkSpelledDecimal, (spellingShape_decText hk m).1 hm]
    rfl
  · rw [checkSpelledDecimal, (spellingShape_decText hk m).2 hmeas, checkedShape, if_neg (by omega)]
    rfl

/-- The text of such a value is not too long either. -/
theorem length_decText_le_of_shape :
    (toBytes (decText k m)).length ≤ 2 * maxDecimalDigits + 2 := by
  have hwhole : (natText (m.natAbs / 10 ^ k)).length ≤ maxDecimalDigits := by
    rw [length_natText_le_iff (by decide), Nat.div_lt_iff_lt_mul (by positivity), ← pow_add]
    obtain rfl | ⟨n, t, hmeas, hdigits⟩ := measured_of_shape hshape hv
    · positivity
    · refine lt_of_lt_of_le hmeas.lt (Nat.pow_le_pow_right (by norm_num) ?_)
      simp only [DecimalShape.digits, shapeOf] at hdigits
      omega
  rw [toBytes, length_map, length_decText]
  split <;> split <;> omega

/-- **Every reader takes a text of the value with not too many places.** -/
theorem readBack_decText (lib : Shopspring) :
    ReadBack lib estimate (toBytes (decText k m)) d.value := by
  set text := toBytes (decText k m) with htext
  have hlen : text.length ≤ 2 * maxDecimalDigits + 2 := length_decText_le_of_shape hshape hv hk
  have hcheck : ∀ parsed, checkSpelledDecimal estimate text parsed = .ok () :=
    checkSpelledDecimal_decText hshape hv hk
  have hplain : Plain text := by
    refine ⟨hlen.trans (by decide), ?_, ?_⟩ <;> rw [htext, splitSpelling_decText]
    simp [toBytes, natText_ne_nil]
  have hvalue : spelledValue text = ⟨m, -k⟩ := spelledValue_decText k m
  have hread : ∀ raw : Bytes, raw.length ≤ text.length + 2 →
      readSpelling estimate raw text (.ok ⟨m, -k⟩) = .ok ⟨m, -k⟩ := by
    intro raw hraw
    have hfits : ¬ maxDecimalSpelling < raw.length := by
      simp only [maxDecimalSpelling, maxDecimalDigits] at hlen ⊢
      omega
    simp only [readSpelling, hfits, if_false, hcheck]
  refine ⟨⟨_, ?_, hv⟩, ⟨_, ?_, hv⟩, ⟨_, ?_, hv⟩, fun old => ⟨_, ?_, hv⟩⟩
  · rw [scan, lib.scan_exact text hplain, hvalue]
    exact hread text (by omega)
  · rw [scan, lib.scan_exact text hplain, hvalue]
    exact hread text (by omega)
  · rw [newDecimalFromString, lib.exact text hplain, hvalue]
    exact hread text (by omega)
  · -- the text between quotation marks
    have hlast : (34 :: (text ++ [34])).getLast? = some 34 := by
      rw [← cons_append, List.getLast?_concat]
    have hinner : ((34 :: (text ++ [34])).drop 1).dropLast = text := dropLast_concat
    have hnull : (34 :: (text ++ [34]) : Bytes) ≠ ascii "null" := by
      intro h
      have hhead := congrArg List.head? h
      rw [List.head?_cons] at hhead
      exact absurd hhead (by decide)
    have hlong : 2 ≤ (34 :: (text ++ [34])).length := by simp
    rw [unmarshalJSON, if_neg hnull, lib.unmarshalJSON_exact text hplain, hvalue]
    simp only [hlong, List.head?_cons, hlast, and_self, if_true, hinner]
    exact hread _ (by simp)

end Spelled

end Readable

/-! ## The two spellings -/

theorem shorten_spec (k : ℕ) (m : ℤ) :
    (shorten k m).1 ≤ k ∧
      (⟨(shorten k m).2, -(shorten k m).1⟩ : Decimal).value = (⟨m, -k⟩ : Decimal).value ∧
      ((shorten k m).1 = 0 ∨ (shorten k m).2 % 10 ≠ 0) := by
  induction k generalizing m with
  | zero => exact ⟨le_rfl, rfl, Or.inl rfl⟩
  | succ k ih =>
    rw [shorten]
    split
    · rename_i hz
      obtain ⟨hle, hv, hlast⟩ := ih (m / 10)
      refine ⟨by omega, hv.trans ?_, hlast⟩
      obtain ⟨j, rfl⟩ : ∃ j, m = 10 * j := Int.dvd_of_emod_eq_zero hz
      have hten : (10 : ℚ) ≠ 0 := by norm_num
      simp only [Decimal.value, Nat.cast_add, Nat.cast_one, neg_add, zpow_add₀ hten]
      rw [Int.mul_ediv_cancel_left _ (by norm_num)]
      push_cast
      norm_num
      ring
    · exact ⟨le_rfl, rfl, Or.inr ‹_›⟩

theorem value_shortest (d : Decimal) :
    (⟨(shortest d).2, -(shortest d).1⟩ : Decimal).value = d.value := by
  rw [shortest, (shorten_spec _ _).2.1]
  simp only [Decimal.value, Int.cast_mul, Int.cast_pow, Int.cast_ofNat]
  rcases le_total 0 d.exponent with h | h
  · obtain ⟨e, he⟩ := Int.eq_ofNat_of_zero_le h
    simp [he]
  · obtain ⟨e, he⟩ := Int.eq_ofNat_of_zero_le (show 0 ≤ -d.exponent by omega)
    rw [show d.exponent = -(e : ℤ) by omega]
    simp

theorem shortest_le (d : Decimal) : (shortest d).1 ≤ (-d.exponent).toNat := (shorten_spec _ _).1

/-- The shortest spelling has the places that the shape counts. -/
theorem shortest_le_frac {d : Decimal} (hshape : decimalShapeOf estimate d = .ok shape) :
    (shortest d).1 ≤ shape.frac := by
  have hlast := (shorten_spec (-d.exponent).toNat (d.coefficient * 10 ^ d.exponent.toNat)).2.2
  change (shortest d).1 = 0 ∨ (shortest d).2 % 10 ≠ 0 at hlast
  rcases hlast with hzero | hlast
  · omega
  · have hne : (shortest d).2 ≠ 0 := by
      intro h
      rw [h] at hlast
      exact hlast rfl
    obtain ⟨-, ⟨hzero, -⟩ | ⟨n, t, hmeas, rfl, -⟩⟩ := decimalShapeOf_measured hshape
    · have hd : d.value = 0 := by rw [value_eq_zero_iff, hzero]
      rw [← value_shortest, value_eq_zero_iff] at hd
      exact absurd hd hne
    · obtain ⟨t', ⟨q, hq, -⟩, hexp⟩ := measured_of_value_eq (value_shortest d) hmeas
      have ht' : t' = 0 := by
        rcases Nat.eq_zero_or_pos t' with h | h
        · exact h
        · obtain ⟨j, rfl⟩ := Nat.exists_eq_add_of_le h
          have hdvd : 10 ∣ (shortest d).2.natAbs := ⟨q * 10 ^ j, by rw [hq]; ring⟩
          omega
      simp only [shapeOf]
      omega

theorem padDigits_mul_pow (k j n : ℕ) :
    padDigits (k + j) (n * 10 ^ j) = padDigits k n ++ List.replicate j '0' := by
  induction k with
  | zero =>
    induction j generalizing n with
    | zero => simp [padDigits]
    | succ j ih =>
      have hzero : n * 10 ^ (j + 1) / 10 ^ j % 10 = 0 := by
        rw [pow_succ', ← mul_assoc, Nat.mul_div_cancel _ (by positivity)]
        omega
      have hrest : n * 10 ^ (j + 1) = n * 10 * 10 ^ j := by ring
      have hstep : padDigits (j + 1) (n * 10 ^ (j + 1)) =
          Nat.digitChar (n * 10 ^ (j + 1) / 10 ^ j % 10) :: padDigits j (n * 10 ^ (j + 1)) := rfl
      have ih' := ih (n * 10)
      rw [Nat.zero_add] at ih' ⊢
      rw [hstep, hzero, hrest, ih']
      rfl
  | succ k ih =>
    have hdigit : n * 10 ^ j / 10 ^ (k + j) = n / 10 ^ k := by
      rw [pow_add, Nat.mul_div_mul_right _ _ (by positivity)]
    rw [show k + 1 + j = (k + j) + 1 by omega, padDigits, hdigit, ih]
    rfl

/-- Zeros at the end of a text are the text with more places. -/
theorem padSpelling_decText {k places : ℕ} (h : k ≤ places) (m : ℤ) :
    padSpelling places (toBytes (decText k m)) =
      toBytes (decText places (m * 10 ^ (places - k))) := by
  obtain ⟨j, rfl⟩ := Nat.exists_eq_add_of_le h
  rw [Nat.add_sub_cancel_left]
  have hsign : signText (m * 10 ^ j) = signText m := by
    have hpos : (0 : ℤ) < 10 ^ j := by positivity
    unfold signText
    simp only [mul_neg_iff, hpos, hpos.not_gt, and_false, and_true, false_or]
  have habs : (m * 10 ^ j).natAbs = m.natAbs * 10 ^ j := by
    rw [Int.natAbs_mul, Int.natAbs_pow]
    rfl
  have hint : m.natAbs * 10 ^ j / 10 ^ (k + j) = m.natAbs / 10 ^ k := by
    rw [pow_add, Nat.mul_div_mul_right _ _ (by positivity)]
  have hfrac : padDigits (k + j) (m.natAbs * 10 ^ j % 10 ^ (k + j)) =
      padDigits k (m.natAbs % 10 ^ k) ++ List.replicate j '0' := by
    rw [padDigits_mod le_rfl, padDigits_mul_pow, padDigits_mod le_rfl]
  have hzeros : toBytes (List.replicate j '0') = List.replicate j 48 := by
    simp [toBytes]
  -- no point among the digits before it
  have hpoint : (46 : UInt8) ∉ toBytes (signText m ++ natText (m.natAbs / 10 ^ k)) := by
    intro hmem
    rw [toBytes, map_append, mem_append] at hmem
    rcases hmem with hmem | hmem
    · unfold signText at hmem
      split at hmem <;> simp at hmem
    · exact absurd (isDigitByte_of_mem_natText hmem) (by decide)
  rw [decText, decText, hsign, habs, hint, hfrac]
  set start := signText m ++ natText (m.natAbs / 10 ^ k) with hstart
  by_cases hk : k = 0
  · subst hk
    have hcut : cut 46 (toBytes start) = none := by
      cases hc : cut 46 (toBytes start) with
      | none => rfl
      | some p =>
        rw [eq_of_cut (a := p.1) (b := p.2) hc] at hpoint
        simp at hpoint
    simp only [Nat.zero_add, if_true, append_nil, padSpelling, hcut]
    by_cases hj : j = 0
    · simp [hj]
    · simp [hj, toBytes, padDigits]
  · have htext : toBytes (start ++ '.' :: padDigits k (m.natAbs % 10 ^ k)) =
        toBytes start ++ 46 :: toBytes (padDigits k (m.natAbs % 10 ^ k)) := by
      simp [toBytes]
    have hkj : k + j ≠ 0 := by omega
    simp only [hk, hkj, if_false, padSpelling, htext, cut_append_cons hpoint]
    have hlen : (toBytes (padDigits k (m.natAbs % 10 ^ k))).length = k := by simp [toBytes]
    rw [hlen, Nat.add_sub_cancel_left, ← hzeros]
    simp [toBytes]

theorem shape_of_no_problem {d : Decimal} {precision scale : ℤ}
    (h : decimalStorageProblem estimate d precision scale false = []) :
    ∃ shape, decimalShapeOf estimate d = .ok shape ∧
      (0 < precision → shape.significant ≠ 0 → (shape.frac : ℤ) ≤ scale) := by
  unfold decimalStorageProblem at h
  split at h
  · rename_i err herr
    exfalso
    subst h
    unfold decimalShapeOf checkedShape at herr
    split at herr
    · exact absurd (Except.error.inj herr) (by decide)
    · split_ifs at herr
      split at herr
      · exact absurd (Except.error.inj herr) (by decide)
      · split_ifs at herr
        exact absurd (Except.error.inj herr) (by decide)
  · rename_i shape hshape
    refine ⟨shape, hshape, fun hp hsig => ?_⟩
    rw [if_neg hsig] at h
    split at h
    · simp [ascii, toBytes] at h
    · split at h
      · simp [ascii, toBytes] at h
      · omega

/-- A value without significant digits has no places. -/
theorem frac_eq_zero {d : Decimal} (hshape : decimalShapeOf estimate d = .ok shape)
    (h : shape.significant = 0) : shape.frac = 0 := by
  obtain ⟨-, ⟨-, rfl⟩ | ⟨n, t, hmeas, rfl, -⟩⟩ := decimalShapeOf_measured hshape
  · rfl
  · have hpos := hmeas.pos
    simp only [shapeOf] at h ⊢
    split at h <;> omega

/-- **What the guard lets through can be read back**: by every reader, in the shortest spelling and,
for a column with declared places, in the spelling padded to them. -/
theorem stored_is_readable (lib : Shopspring) (estimate : ℕ → ℕ) (d : Decimal) (precision scale : ℤ)
    (hcolumn : precision ≤ 0 ∨ 0 ≤ scale ∧ scale ≤ precision ∧ precision ≤ 1000)
    (h : decimalStorageProblem estimate d precision scale false = []) :
    ReadBack lib estimate (canonicalSpelling d) d.value ∧
      (0 < precision →
        ReadBack lib estimate (padSpelling scale.toNat (canonicalSpelling d)) d.value) := by
  obtain ⟨shape, hshape, hfrac⟩ := shape_of_no_problem h
  have hbound := (decimalShapeOf_measured hshape).1
  have hplaces : (shortest d).1 ≤ maxDecimalDigits := by
    have hle := shortest_le d
    unfold Unbounded at hbound
    omega
  refine ⟨readBack_decText hshape (value_shortest d) hplaces lib, fun hp => ?_⟩
  obtain ⟨hscale, hle, hmax⟩ := hcolumn.resolve_left (by omega)
  have hshort : (shortest d).1 ≤ scale.toNat := by
    have hle' := shortest_le_frac hshape
    by_cases hsig : shape.significant = 0
    · have hzero := frac_eq_zero hshape hsig
      omega
    · have hfrac' := hfrac hp hsig
      omega
  rw [canonicalSpelling, padSpelling_decText hshort]
  refine readBack_decText hshape ?_ (by simp only [maxDecimalDigits]; omega) lib
  rw [← value_shortest d]
  obtain ⟨j, hj⟩ := Nat.exists_eq_add_of_le hshort
  have hten : (10 : ℚ) ≠ 0 := by norm_num
  rw [hj, Nat.add_sub_cancel_left]
  simp only [Decimal.value, Nat.cast_add, neg_add, zpow_add₀ hten, Int.cast_mul, Int.cast_pow,
    Int.cast_ofNat, zpow_neg, zpow_natCast]
  field_simp

/-- A reader of spellings. -/
def plainReader : Shopspring where
  newFromString s := .ok (spelledValue s)
  scan s := .ok (spelledValue s)
  unmarshalJSON b := .ok (spelledValue (b.drop 1).dropLast)
  exact _ _ := rfl
  scan_exact _ _ := rfl
  unmarshalJSON_exact s _ := by rw [List.drop_one, List.tail_cons, dropLast_concat]

/-- A price in a column `decimal(19,4)`, which gives it back with two zeros. -/
theorem stored_is_readable_price :
    padSpelling 4 (canonicalSpelling ⟨1995, -2⟩) = ascii "19.9500" ∧
      ReadBack plainReader (fun _ => 0) (canonicalSpelling ⟨1995, -2⟩) (⟨1995, -2⟩ : Decimal).value ∧
      (0 < (19 : ℤ) → ReadBack plainReader (fun _ => 0)
        (padSpelling 4 (canonicalSpelling ⟨1995, -2⟩)) (⟨1995, -2⟩ : Decimal).value) :=
  ⟨by decide +kernel, stored_is_readable plainReader (fun _ => 0) ⟨1995, -2⟩ 19 4 (by decide)
    (by decide +kernel)⟩

end Gombit.Types
