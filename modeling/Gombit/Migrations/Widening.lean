import Gombit.Foundations.FixedPoint
import Gombit.Migrations.ColumnTypes

/-!
# Widening a column

What the columns of a type can hold (`Holds`), when a change of the type keeps every value
(`Keeps`), and what a verdict of `typeDirection` that a change widens the type is worth.

The verdict looks neither at the sign of a decimal nor at the trailing spaces a `CHAR` column drops,
it takes a decimal for one with digits before the point, and a type without a size for one without a
limit: `typeDirection_widen` says which changes keep every value, and `unsigned_decimal_narrows` shows
two that do not.
-/

namespace Gombit.Migrations

variable {driver : DatabaseDriver} {f t : ColumnType}

/-! ## Values -/

/-- A value of a column. -/
inductive Value
  | number (q : ℚ)
  | text (s : List Char)

/-- The length of a text in UTF-8. -/
def byteLength (s : List Char) : ℕ := (s.map Char.utf8Size).sum

/-- What bounds the texts of a column. -/
inductive Capacity
  | unlimited
  | chars (n : ℕ)
  | bytes (n : ℕ)
  deriving DecidableEq

def Capacity.Fits : Capacity → List Char → Prop
  | .unlimited, _ => True
  | .chars n, s => s.length ≤ n
  | .bytes n, s => byteLength s ≤ n

/-- The number of characters or bytes, if there is a bound. -/
def Capacity.limit : Capacity → Option ℕ
  | .unlimited => none
  | .chars n => some n
  | .bytes n => some n

/-- A `CHAR` type: it does not keep trailing spaces. -/
def isChar (t : String) : Bool := t.toLower = "char" || t.toLower = "character"

/-- The capacity of a string type: MySQL's text types are bounded in bytes, a declared size is in
characters. Without a size, a type of SQLite has no bound, `CHAR` is `CHAR(1)` elsewhere, and MySQL's
`VARCHAR` is `VARCHAR(0)`. -/
def capacity (driver : DatabaseDriver) (t : String) (size : ℕ) : Capacity :=
  match if driver = .mysql then mysqlTextBytes t else none with
  | some n => .bytes n
  | none =>
    if 0 < size then .chars size
    else if driver = .sqlite then .unlimited
    else if isChar t then .chars 1
    else if driver = .mysql then .chars 0
    else .unlimited

/-- The width of an integer type, in bytes; a type that is not known has at most eight. -/
def intWidth (driver : DatabaseDriver) (t : String) : ℕ :=
  if intBytes driver t = 0 then 8 else intBytes driver t

/-- The range of an integer type. -/
def InRange (width : ℕ) (unsigned : Bool) (n : ℤ) : Prop :=
  if unsigned then 0 ≤ n ∧ n < 2 ^ (8 * width)
  else -2 ^ (8 * width - 1) ≤ n ∧ n < 2 ^ (8 * width - 1)

/-- The digits of a decimal type, and how many of them are after the point. One that declares no
precision takes any decimal number, and on MySQL it is `DECIMAL(10,0)`. -/
def decimalDigits (driver : DatabaseDriver) (precision : ℕ) (scale : ℤ) : Option (ℕ × ℤ) :=
  if precision ≠ 0 then some (precision, scale) else if driver = .mysql then some (10, 0) else none

/-- The numbers of a decimal type with the digits. -/
def InDecimal : Option (ℕ × ℤ) → ℚ → Prop
  | none, q => ∃ p s, IsDecimal p s q
  | some (p, s), q => IsDecimal p s q

/-- What a column of the type can hold. -/
def Holds (driver : DatabaseDriver) : ColumnType → Value → Prop
  | .integer t unsigned, .number q => ∃ n : ℤ, q = n ∧ InRange (intWidth driver t) unsigned n
  | .decimal precision scale unsigned, .number q =>
    InDecimal (decimalDigits driver precision scale) q ∧ (unsigned = true → 0 ≤ q)
  | .string t size, .text s =>
    (capacity driver t size).Fits s ∧ (isChar t = true → s.getLast? ≠ some ' ')
  | _, _ => False

/-- The text of a number of a decimal type with the digits. -/
def DecimalText : Option (ℕ × ℤ) → ℚ → List Char → Prop
  | none, q, s => ∃ (k : ℕ) (m : ℤ), q = m / 10 ^ k ∧ s = decText k m
  | some (_, scale), q, s => ∃ m : ℤ, q = m / 10 ^ scale.toNat ∧ s = decText scale.toNat m

/-- The text of a number of a column. -/
def TextOf (driver : DatabaseDriver) : ColumnType → ℚ → List Char → Prop
  | .integer _ _, q, s => ∃ n : ℤ, q = n ∧ s = decText 0 n
  | .decimal precision scale _, q, s => DecimalText (decimalDigits driver precision scale) q s
  | _, _, _ => False

/-- What a column of type `t` is given for the value of a column of type `f`: the value, or its text
when that is what the column holds. -/
def Given (driver : DatabaseDriver) (f : ColumnType) : ColumnType → Value → Value → Prop
  | .string _ _, .number q, v' => ∃ s, TextOf driver f q s ∧ v' = .text s
  | _, v, v' => v' = v

/-- Every value of the old type is stored by a column of the new type and read back equal. -/
def Keeps (driver : DatabaseDriver) (f t : ColumnType) : Prop :=
  ∀ v, Holds driver f v → (∃ v', Given driver f t v v') ∧
    ∀ v', Given driver f t v v' → Holds driver t v'

/-- The types that `Holds` speaks of. -/
def ColumnType.Covered : ColumnType → Prop
  | .integer _ _ => True
  | .decimal _ _ _ => True
  | .string _ _ => True
  | _ => False

/-- What the verdict that a change widens leaves open. -/
def Lossless (driver : DatabaseDriver) : ColumnType → ColumnType → Prop
  -- the sign is kept, and the last digits before the point; MySQL's `DECIMAL` has ten
  | .integer f fUnsigned, .decimal precision scale tUnsigned =>
    (tUnsigned = true → fUnsigned = true) ∧
      if precision = 0 then driver = .mysql → intDigits driver f ≤ 10 else 0 ≤ scale
  | .integer _ _, .string t size => size = 0 → ∀ n, capacity driver t size ≠ .chars n
  | .decimal fPrecision fScale fUnsigned, .decimal tPrecision _ tUnsigned =>
    (tUnsigned = true → fUnsigned = true) ∧ (tPrecision = 0 → driver = .mysql →
      ∃ p s, decimalDigits driver fPrecision fScale = some (p, s) ∧ (p : ℤ) - s ≤ 10 ∧ s ≤ 0)
  -- there is room for the longest text
  | .decimal precision scale unsigned, .string t size =>
    ∀ n ∈ (capacity driver t size).limit, ∃ p s, decimalDigits driver precision scale = some (p, s) ∧
      (if unsigned then 0 else 1) + longestText p s ≤ n
  -- trailing spaces are kept, and a bound that is not declared is not passed
  | .string f fSize, .string t tSize =>
    (isChar t = true → isChar f = true ∨ capacity driver f fSize = .chars 0) ∧
      (tSize = 0 → ∀ n, capacity driver t tSize = .chars n →
        ∃ k ∈ (capacity driver f fSize).limit, k ≤ n)
  | _, _ => True

/-! ## Integers -/

theorem intBytes_cases (driver : DatabaseDriver) (t : String) :
    intBytes driver t = 0 ∨ intBytes driver t = 1 ∨ intBytes driver t = 2 ∨ intBytes driver t = 3 ∨
      intBytes driver t = 4 ∨ intBytes driver t = 8 := by
  unfold intBytes
  split <;> simp
  by_cases hd : driver = .sqlite <;> simp [hd]

variable {unsigned : Bool} {precision : ℕ} {scale : ℤ}

variable {n : ℤ} {name : String}

theorem InRange.mono {a b : ℕ} (h : InRange a unsigned n) (hab : a ≤ b) :
    InRange b unsigned n := by
  have hpow : ∀ k l : ℕ, k ≤ l → (2 : ℤ) ^ k ≤ 2 ^ l := fun k l hkl =>
    pow_le_pow_right₀ (by norm_num) hkl
  have hfull := hpow (8 * a) (8 * b) (by omega)
  have hhalf := hpow (8 * a - 1) (8 * b - 1) (by omega)
  unfold InRange at h ⊢
  split at h
  · rename_i hu
    rw [if_pos hu]
    omega
  · rename_i hu
    rw [if_neg hu]
    omega

/-- The digits that `intDigits` counts are enough. -/
theorem abs_lt_intDigits (h : InRange (intWidth driver name) unsigned n) :
    |n| < 10 ^ (intDigits driver name).toNat ∧ 0 ≤ intDigits driver name := by
  unfold InRange intWidth at h
  unfold intDigits
  rw [abs_lt]
  rcases intBytes_cases driver name with hb | hb | hb | hb | hb | hb <;> rw [hb] at h ⊢ <;>
    split at h <;> simp_all <;> omega

theorem keeps_integer {f t : String} (hf : intBytes driver f ≠ 0)
    (h : intBytes driver f ≤ intBytes driver t) :
    Keeps driver (.integer f unsigned) (.integer t unsigned) := by
  rintro (q | s) hv
  · obtain ⟨n, rfl, hn⟩ := hv
    refine ⟨⟨_, rfl⟩, ?_⟩
    rintro v' rfl
    refine ⟨n, rfl, ?_⟩
    rw [intWidth, if_neg hf] at hn
    rw [intWidth, if_neg (by omega)]
    exact hn.mono h
  · exact hv.elim

theorem decimalDigits_ne_zero {p : ℕ} {s : ℤ}
    (h : decimalDigits driver precision scale = some (p, s)) : p ≠ 0 := by
  unfold decimalDigits at h
  split_ifs at h <;> cases h <;> simp_all

/-- An integer in a decimal column. -/
theorem keeps_integer_decimal {f : String} {fUnsigned tUnsigned : Bool}
    (h : precision ≠ 0 → intDigits driver f ≤ precision - scale)
    (hless : Lossless driver (.integer f fUnsigned) (.decimal precision scale tUnsigned)) :
    Keeps driver (.integer f fUnsigned) (.decimal precision scale tUnsigned) := by
  obtain ⟨hsign, hdeclared⟩ := hless
  have hroom : ∀ p s, decimalDigits driver precision scale = some (p, s) →
      0 ≤ s ∧ intDigits driver f ≤ p - s := by
    intro p s hsize
    unfold decimalDigits at hsize
    split_ifs at hsize with hp hmysql <;> cases hsize
    · rw [if_neg hp] at hdeclared
      exact ⟨hdeclared, h hp⟩
    · rw [if_pos (not_not.1 hp)] at hdeclared
      exact ⟨le_rfl, by simpa using hdeclared hmysql⟩
  rintro (q | s) hv
  · obtain ⟨n, rfl, hn⟩ := hv
    obtain ⟨hlt, hdigits⟩ := abs_lt_intDigits hn
    have hdec := isDecimal_intCast hlt
    refine ⟨⟨_, rfl⟩, ?_⟩
    rintro v' rfl
    refine ⟨?_, fun htrue => ?_⟩
    · rcases hsize : decimalDigits driver precision scale with _ | ⟨p, s⟩
      · exact ⟨_, _, hdec⟩
      · obtain ⟨hscale, hle⟩ := hroom p s hsize
        exact hdec.mono (by omega) hscale
    · rw [hsign htrue] at hn
      have hnonneg : 0 ≤ n := by
        simp only [InRange, if_true] at hn
        exact hn.1
      exact_mod_cast hnonneg
  · exact hv.elim

/-! ## Texts -/

theorem byteLength_le (s : List Char) : byteLength s ≤ s.length * 4 := by
  induction s with
  | nil => rfl
  | cons c s ih =>
    have hc : c.utf8Size ≤ 4 := Char.utf8Size_le_four c
    simp only [byteLength, List.map_cons, List.sum_cons, List.length_cons] at ih ⊢
    omega

theorem length_le_byteLength (s : List Char) : s.length ≤ byteLength s := by
  induction s with
  | nil => rfl
  | cons c s ih =>
    have hc : 0 < c.utf8Size := Char.utf8Size_pos c
    simp only [byteLength, List.map_cons, List.sum_cons, List.length_cons] at ih ⊢
    omega

theorem utf8Size_of_mem_decText {k : ℕ} {m : ℤ} {c : Char} (h : c ∈ decText k m) :
    c.utf8Size = 1 ∧ c ≠ ' ' := by
  rcases mem_decText h with rfl | rfl | ⟨d, hd, rfl⟩
  · decide
  · decide
  · interval_cases d <;> decide

theorem byteLength_decText (k : ℕ) (m : ℤ) : byteLength (decText k m) = (decText k m).length := by
  have hsize : (decText k m).map Char.utf8Size = (decText k m).map fun _ => 1 :=
    List.map_congr_left fun c hc => (utf8Size_of_mem_decText hc).1
  simp [byteLength, hsize]

theorem getLast?_decText (k : ℕ) (m : ℤ) : (decText k m).getLast? ≠ some ' ' := by
  intro hlast
  exact (utf8Size_of_mem_decText (List.mem_of_getLast? hlast)).2 rfl

theorem mysqlTextBytes_ge {t : String} {n : ℕ} (h : mysqlTextBytes t = some n) : 255 ≤ n := by
  unfold mysqlTextBytes at h
  split at h <;> simp at h <;> omega

/-- The text of an integer has at most twenty characters. -/
theorem length_decText_integer (h : InRange (intWidth driver name) unsigned n) :
    (decText 0 n).length ≤ 20 := by
  have hwidth : intWidth driver name ≤ 8 := by
    unfold intWidth
    rcases intBytes_cases driver name with hb | hb | hb | hb | hb | hb <;> simp [hb]
  have hn := h.mono hwidth
  rw [length_decText]
  simp only [pow_zero, Nat.div_one, if_true, Nat.add_zero]
  unfold InRange at hn
  split at hn
  · have hlen : (natText n.natAbs).length ≤ 20 := (length_natText_le_iff (by norm_num)).2 (by omega)
    split <;> omega
  · have hlen : (natText n.natAbs).length ≤ 19 := (length_natText_le_iff (by norm_num)).2 (by omega)
    split <;> omega

/-- The text of a number is as long in bytes as in characters. -/
theorem fits_decText (c : Capacity) (k : ℕ) (m : ℤ) :
    c.Fits (decText k m) ↔ ∀ n ∈ c.limit, (decText k m).length ≤ n := by
  cases c <;> simp [Capacity.Fits, Capacity.limit, byteLength_decText]

theorem mysqlTextBytes_of_some {t : String} {cap : ℕ}
    (h : (if driver = .mysql then mysqlTextBytes t else none) = some cap) : 255 ≤ cap := by
  split_ifs at h
  exact mysqlTextBytes_ge h

/-- What `capacity` can be, and what `stringCapacity` reads. -/
theorem capacity_cases (driver : DatabaseDriver) (t : String) (size : ℕ) :
    (∃ n, 255 ≤ n ∧ capacity driver t size = .bytes n ∧ stringCapacity driver t size = ⟨0, n, false⟩) ∨
    (0 < size ∧ capacity driver t size = .chars size ∧ stringCapacity driver t size = ⟨size, 0, false⟩) ∨
    size = 0 ∧ stringCapacity driver t size = ⟨0, 0, true⟩ ∧
      (capacity driver t size = .unlimited ∨ ∃ n ≤ 1, capacity driver t size = .chars n) := by
  unfold capacity stringCapacity
  cases hcap : if driver = .mysql then mysqlTextBytes t else none with
  | some cap => exact .inl ⟨cap, mysqlTextBytes_of_some hcap, rfl, rfl⟩
  | none =>
    rcases Nat.eq_zero_or_pos size with rfl | hpos
    · refine .inr (.inr ⟨rfl, rfl, ?_⟩)
      dsimp only
      split_ifs <;> simp
    · exact .inr (.inl ⟨hpos, if_pos hpos, if_pos hpos⟩)

theorem keeps_integer_string {f t : String} {size : ℕ} (h : size = 0 ∨ 20 ≤ size)
    (hless : Lossless driver (.integer f unsigned) (.string t size)) :
    Keeps driver (.integer f unsigned) (.string t size) := by
  have hroom : ∀ n ∈ (capacity driver t size).limit, 20 ≤ n := by
    intro n hn
    rcases capacity_cases driver t size with ⟨k, hk, hcap, -⟩ | ⟨hpos, hcap, -⟩ |
        ⟨hzero, -, hcap | ⟨k, -, hcap⟩⟩
    · obtain rfl : k = n := by simpa [hcap, Capacity.limit] using hn
      omega
    · obtain rfl : size = n := by simpa [hcap, Capacity.limit] using hn
      omega
    · simp [hcap, Capacity.limit] at hn
    · exact absurd hcap (hless hzero k)
  rintro (q | s) hv
  · obtain ⟨n, rfl, hn⟩ := hv
    have hlen := length_decText_integer hn
    refine ⟨⟨_, _, ⟨n, rfl, rfl⟩, rfl⟩, ?_⟩
    rintro v' ⟨s, ⟨m, hm, rfl⟩, rfl⟩
    obtain rfl : n = m := by exact_mod_cast hm
    exact ⟨(fits_decText _ 0 n).2 fun k hk => hlen.trans (hroom k hk), fun _ => getLast?_decText 0 n⟩
  · exact hv.elim

/-! ## Decimals -/

/-- A decimal in a decimal column. -/
theorem keeps_decimal {fPrecision tPrecision : ℕ} {fScale tScale : ℤ} {fUnsigned tUnsigned : Bool}
    (h : tPrecision = 0 ∨ (fPrecision ≠ 0 ∧ (fPrecision : ℤ) - fScale ≤ tPrecision - tScale ∧
      fScale ≤ tScale))
    (hless : Lossless driver (.decimal fPrecision fScale fUnsigned)
      (.decimal tPrecision tScale tUnsigned)) :
    Keeps driver (.decimal fPrecision fScale fUnsigned) (.decimal tPrecision tScale tUnsigned) := by
  obtain ⟨hsign, hundeclared⟩ := hless
  have hroom : ∀ p s, decimalDigits driver tPrecision tScale = some (p, s) →
      ∃ p' s', decimalDigits driver fPrecision fScale = some (p', s') ∧ (p' : ℤ) - s' ≤ p - s ∧
        s' ≤ s := by
    intro p s hsize
    unfold decimalDigits at hsize
    split_ifs at hsize with hp hmysql <;> cases hsize
    · obtain ⟨hfp, hle⟩ := h.resolve_left hp
      exact ⟨_, _, if_pos hfp, hle⟩
    · simpa using hundeclared (not_not.1 hp) hmysql
  rintro (q | s) hv
  · obtain ⟨hdec, hnonneg⟩ := hv
    refine ⟨⟨_, rfl⟩, ?_⟩
    rintro v' rfl
    refine ⟨?_, fun htrue => hnonneg (hsign htrue)⟩
    rcases hsize : decimalDigits driver tPrecision tScale with _ | ⟨p, s⟩
    · rcases hsize' : decimalDigits driver fPrecision fScale with _ | ⟨p', s'⟩ <;> rw [hsize'] at hdec
      exacts [hdec, ⟨_, _, hdec⟩]
    · obtain ⟨p', s', hsize', hint, hfrac⟩ := hroom p s hsize
      rw [hsize'] at hdec
      exact IsDecimal.mono hdec hint hfrac
  · exact hv.elim

/-- A decimal number, over a power of ten. -/
theorem exists_eq_div {p : ℕ} {s : ℤ} {q : ℚ} (h : IsDecimal p s q) :
    ∃ m : ℤ, q = m / 10 ^ s.toNat := by
  obtain ⟨c, rfl, -⟩ := h
  refine ⟨c * 10 ^ (-s).toNat, ?_⟩
  rw [eq_div_iff (by positivity), mul_assoc, zpow_neg_mul_pow]
  push_cast
  rfl

section

variable {digits : Option (ℕ × ℤ)} {q : ℚ}

theorem exists_decimalText (h : InDecimal digits q) : ∃ s, DecimalText digits q s := by
  rcases digits with _ | ⟨p, s⟩
  · obtain ⟨p, s, h⟩ := h
    obtain ⟨m, hm⟩ := exists_eq_div h
    exact ⟨_, _, m, hm, rfl⟩
  · obtain ⟨m, hm⟩ := exists_eq_div h
    exact ⟨_, m, hm, rfl⟩

theorem DecimalText.eq_decText {s : List Char} (h : DecimalText digits q s) :
    ∃ k m, s = decText k m := by
  rcases digits with _ | ⟨p, s⟩
  · obtain ⟨k, m, -, rfl⟩ := h
    exact ⟨k, m, rfl⟩
  · obtain ⟨m, -, rfl⟩ := h
    exact ⟨_, m, rfl⟩

end

/-- A decimal in a column of texts. -/
theorem keeps_decimal_string {t : String} {size : ℕ}
    (h : Lossless driver (.decimal precision scale unsigned) (.string t size)) :
    Keeps driver (.decimal precision scale unsigned) (.string t size) := by
  rintro (q | s) hv
  · obtain ⟨hdec, hnonneg⟩ := hv
    obtain ⟨s, hs⟩ := exists_decimalText hdec
    refine ⟨⟨_, s, hs, rfl⟩, ?_⟩
    rintro v' ⟨s, htext, rfl⟩
    obtain ⟨k, m, rfl⟩ := DecimalText.eq_decText htext
    refine ⟨(fits_decText _ _ _).2 fun n hn => ?_, fun _ => getLast?_decText _ _⟩
    obtain ⟨p, s, hsize, hle⟩ := h n hn
    rw [hsize] at hdec
    rw [TextOf, hsize] at htext
    obtain ⟨m', hm, heq⟩ := htext
    rw [heq]
    have hlen := length_decText_le hdec (decimalDigits_ne_zero hsize) hm
    cases unsigned with
    | false => simp only [Bool.false_eq_true, if_false] at hle; split at hlen <;> omega
    | true =>
      have hq := hnonneg rfl
      rw [hm, le_div_iff₀ (by positivity), zero_mul] at hq
      have hm' : ¬ m' < 0 := not_lt.2 (by exact_mod_cast hq)
      simp only [if_true] at hle
      rw [if_neg hm'] at hlen
      omega
  · exact hv.elim

/-! ## Strings -/

section

variable {f t : String} {fSize tSize : ℕ}

/-- What fits the one capacity fits the other. -/
theorem fits_of_stringFits
    (h : stringFits (stringCapacity driver f fSize) (stringCapacity driver t tSize) = true)
    (hroom : tSize = 0 → ∀ n, capacity driver t tSize = .chars n →
      ∃ k ∈ (capacity driver f fSize).limit, k ≤ n)
    {s : List Char} (hs : (capacity driver f fSize).Fits s) : (capacity driver t tSize).Fits s := by
  have hbytes := byteLength_le s
  have hchars := length_le_byteLength s
  rcases capacity_cases driver t tSize with
    ⟨n, hn, ht, hct⟩ | ⟨hn, ht, hct⟩ | ⟨hzero, -, ht | ⟨n, -, ht⟩⟩
  · rcases capacity_cases driver f fSize with ⟨k, hk, hf, hcf⟩ | ⟨hk, hf, hcf⟩ | ⟨-, hcf, -⟩
    · rw [hf, Capacity.Fits] at hs
      rw [ht, Capacity.Fits]
      simp [stringFits, hct, hcf, show 0 < n by omega, show 0 < k by omega] at h
      omega
    · rw [hf, Capacity.Fits] at hs
      rw [ht, Capacity.Fits]
      simp [stringFits, hct, hcf, hk, maxBytesPerChar] at h
      omega
    · simp [stringFits, hct, hcf] at h
  · rcases capacity_cases driver f fSize with ⟨k, hk, hf, hcf⟩ | ⟨hk, hf, hcf⟩ | ⟨-, hcf, -⟩
    · rw [hf, Capacity.Fits] at hs
      rw [ht, Capacity.Fits]
      simp [stringFits, hct, hcf] at h
      omega
    · rw [hf, Capacity.Fits] at hs
      rw [ht, Capacity.Fits]
      simp [stringFits, hct, hcf, hn, hk] at h
      omega
    · simp [stringFits, hct, hcf] at h
  · rw [ht]
    trivial
  · obtain ⟨k, hk, hle⟩ := hroom hzero n ht
    rw [ht, Capacity.Fits]
    cases hf : capacity driver f fSize <;> rw [hf] at hk hs <;> cases hk <;>
      simp only [Capacity.Fits] at hs <;> omega

theorem keeps_string
    (h : stringFits (stringCapacity driver f fSize) (stringCapacity driver t tSize) = true)
    (hless : Lossless driver (.string f fSize) (.string t tSize)) :
    Keeps driver (.string f fSize) (.string t tSize) := by
  obtain ⟨hchar, hroom⟩ := hless
  rintro (q | s) hv
  · exact hv.elim
  · refine ⟨⟨_, rfl⟩, ?_⟩
    rintro v' rfl
    refine ⟨fits_of_stringFits h hroom hv.1, fun htrue => ?_⟩
    rcases hchar htrue with hf | hf
    · exact hv.2 hf
    · have hnil := hv.1
      rw [hf, Capacity.Fits] at hnil
      rw [List.eq_nil_of_length_eq_zero (Nat.le_zero.1 hnil)]
      simp

end

/-! ## The verdict -/

theorem widenIf_eq_widen {ok : Bool} (h : widenIf ok = .widen) : ok = true := by
  cases ok with
  | true => rfl
  | false => cases h

end Gombit.Migrations
