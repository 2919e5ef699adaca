import Gombit.Foundations.Bytes

/-!
# Significant digits

The digits of a number between its leading and its trailing zeros, counted three ways: on the number
(`dropZeros`, `countDigits`), on its text from the end (`trimmedLen`), and on any run of digits
(`nonZeroSpan`). All three find the same `Measured` pair, which a number has only once and which a
shift of the point does not change (`Measured.eq_of_value_eq`).
-/

namespace Gombit

open List

/-! ## Digits as bytes -/

def isDigitByte (c : UInt8) : Bool := 48 ≤ c && c ≤ 57

variable {b : UInt8} {s : Bytes}

theorem isDigitByte_iff : isDigitByte b = true ↔ 48 ≤ b.toNat ∧ b.toNat ≤ 57 := by
  simp only [isDigitByte, Bool.and_eq_true, decide_eq_true_eq, UInt8.le_iff_toNat_le]
  exact Iff.rfl

/-- The number whose digits follow those of `a`. -/
def numeralFrom (a : ℕ) (s : Bytes) : ℕ := s.foldl (fun n c => n * 10 + (c.toNat - 48)) a

/-- The number that digits stand for. -/
def numeral (s : Bytes) : ℕ := numeralFrom 0 s

theorem numeralFrom_eq (a : ℕ) (s : Bytes) :
    numeralFrom a s = a * 10 ^ s.length + numeral s := by
  induction s generalizing a with
  | nil => simp [numeralFrom, numeral]
  | cons c s ih =>
    have hleft : numeralFrom a (c :: s) = numeralFrom (a * 10 + (c.toNat - 48)) s := rfl
    have hright : numeral (c :: s) = numeralFrom (0 * 10 + (c.toNat - 48)) s := rfl
    rw [hleft, hright, ih, ih (0 * 10 + (c.toNat - 48)), length_cons, pow_succ]
    ring

theorem numeral_append (s t : Bytes) :
    numeral (s ++ t) = numeral s * 10 ^ t.length + numeral t := by
  rw [numeral, numeralFrom, foldl_append]
  exact numeralFrom_eq _ t

theorem numeral_concat (s : Bytes) (c : UInt8) :
    numeral (s ++ [c]) = numeral s * 10 + (c.toNat - 48) := by
  rw [numeral_append]
  simp [numeral, numeralFrom]

theorem toNat_ofNat_digitChar {d : ℕ} (h : d < 10) :
    (UInt8.ofNat (Nat.digitChar d).toNat).toNat = 48 + d := by
  interval_cases d <;> rfl

theorem isDigitByte_digitChar {d : ℕ} (h : d < 10) :
    isDigitByte (UInt8.ofNat (Nat.digitChar d).toNat) = true := by
  interval_cases d <;> rfl

theorem numeralFrom_of_natOfDigits {a m : ℕ} {cs : List Char} (h : natOfDigits a cs = some m) :
    numeralFrom a (toBytes cs) = m := by
  induction cs generalizing a with
  | nil => exact Option.some.inj h
  | cons c cs ih =>
    rw [natOfDigits] at h
    split_ifs at h
    rename_i hdigit
    have hlt : c.toNat < 256 := by
      simp only [Char.isDigit, Bool.and_eq_true, decide_eq_true_eq] at hdigit
      have h9 : c.toNat ≤ 57 := hdigit.2
      omega
    have hstep : numeralFrom a (toBytes (c :: cs)) =
        numeralFrom (a * 10 + ((UInt8.ofNat c.toNat).toNat - 48)) (toBytes cs) := rfl
    rw [hstep, UInt8.toNat_ofNat', Nat.mod_eq_of_lt hlt]
    exact ih h

@[simp] theorem numeral_natText (n : ℕ) : numeral (toBytes (natText n)) = n := by
  have h := parseUint_natText n
  rw [parseUint, if_neg (natText_ne_nil n)] at h
  exact numeralFrom_of_natOfDigits h

@[simp] theorem numeral_padDigits (w n : ℕ) : numeral (toBytes (padDigits w n)) = n % 10 ^ w := by
  induction w with
  | zero => simp [padDigits, toBytes, numeral, numeralFrom, Nat.mod_one]
  | succ w ih =>
    have hd : n / 10 ^ w % 10 < 10 := Nat.mod_lt _ (by norm_num)
    have hstep : toBytes (padDigits (w + 1) n) =
        [UInt8.ofNat (Nat.digitChar (n / 10 ^ w % 10)).toNat] ++ toBytes (padDigits w n) := rfl
    rw [hstep, numeral_append, ih]
    have hone : numeral [UInt8.ofNat (Nat.digitChar (n / 10 ^ w % 10)).toNat] = n / 10 ^ w % 10 := by
      simp only [numeral, numeralFrom, foldl_cons, foldl_nil, toNat_ofNat_digitChar hd]
      omega
    rw [hone, toBytes, length_map, length_padDigits, pow_succ, Nat.mod_mul]
    ring

theorem isDigitByte_of_mem_natText {n : ℕ} (h : b ∈ toBytes (natText n)) :
    isDigitByte b = true := by
  obtain ⟨c, hc, rfl⟩ := mem_map.1 h
  obtain ⟨d, hd, rfl⟩ := mem_natText hc
  exact isDigitByte_digitChar hd

theorem isDigitByte_of_mem_padDigits {w n : ℕ} (h : b ∈ toBytes (padDigits w n)) :
    isDigitByte b = true := by
  obtain ⟨c, hc, rfl⟩ := mem_map.1 h
  obtain ⟨d, hd, rfl⟩ := mem_padDigits hc
  exact isDigitByte_digitChar hd

/-! ## Counting significant digits -/

/-- The number has `n` significant digits, of which the last is not zero, before `t` zeros. -/
def Measured (m n t : ℕ) : Prop := ∃ q, m = q * 10 ^ t ∧ ¬ 10 ∣ q ∧ 10 ^ n ≤ q * 10 ∧ q < 10 ^ n

namespace Measured

variable {m n t : ℕ}

theorem pos (h : Measured m n t) : 0 < n := by
  obtain ⟨q, -, hdvd, -, hlt⟩ := h
  rcases Nat.eq_zero_or_pos n with rfl | hpos
  · have hq : q = 0 := by simpa using hlt
    exact absurd (hq ▸ dvd_zero 10) hdvd
  · exact hpos

theorem ne_zero (h : Measured m n t) : m ≠ 0 := by
  obtain ⟨q, rfl, hdvd, -, -⟩ := h
  refine Nat.mul_ne_zero ?_ (by positivity)
  rintro rfl
  exact hdvd (dvd_zero 10)

theorem lt (h : Measured m n t) : m < 10 ^ (n + t) := by
  obtain ⟨q, rfl, -, -, hlt⟩ := h
  rw [pow_add]
  exact Nat.mul_lt_mul_of_pos_right hlt (by positivity)

theorem le (h : Measured m n t) : 10 ^ (n + t) ≤ m * 10 := by
  obtain ⟨q, rfl, -, hle, -⟩ := h
  calc 10 ^ (n + t) = 10 ^ n * 10 ^ t := pow_add ..
    _ ≤ q * 10 * 10 ^ t := Nat.mul_le_mul_right _ hle
    _ = q * 10 ^ t * 10 := by ring

/-- Zeros at the end are zeros at the end. -/
theorem mul_pow (h : Measured m n t) (k : ℕ) : Measured (m * 10 ^ k) n (t + k) := by
  obtain ⟨q, rfl, hdvd, hle, hlt⟩ := h
  exact ⟨q, by rw [pow_add, mul_assoc], hdvd, hle, hlt⟩

/-- The value as its significant digits and the place of the last of them. -/
theorem mul_zpow (h : Measured m n t) (e : ℤ) :
    ∃ q : ℕ, (m : ℚ) * 10 ^ e = q * 10 ^ (e + t) ∧ ¬ 10 ∣ q ∧ 10 ^ n ≤ q * 10 ∧ q < 10 ^ n := by
  obtain ⟨q, rfl, hdvd, hle, hlt⟩ := h
  refine ⟨q, ?_, hdvd, hle, hlt⟩
  rw [zpow_add₀ (by norm_num), zpow_natCast]
  push_cast
  ring

end Measured

/-- A digit that is not zero at the end makes every digit before it significant. -/
theorem measured_concat {m d : ℕ} (hd : d ≠ 0) (hd' : d < 10) {k : ℕ} (hle : 10 ^ k ≤ m * 10 ∨ k = 0)
    (hlt : m < 10 ^ k) : Measured (m * 10 + d) (k + 1) 0 := by
  refine ⟨m * 10 + d, by simp, by omega, ?_, ?_⟩
  · rw [pow_succ]
    refine Nat.mul_le_mul_right 10 ?_
    rcases hle with hle | rfl
    · omega
    · rw [pow_zero]
      omega
  · rw [pow_succ]
    omega

theorem pow_le_of_lt {a b c : ℕ} (h₁ : 10 ^ a ≤ c * 10) (h₂ : c < 10 ^ b) : a ≤ b := by
  by_contra hlt
  have hpow : 10 ^ (b + 1) ≤ 10 ^ a := Nat.pow_le_pow_right (by norm_num) (by omega)
  rw [pow_succ] at hpow
  omega

/-- A number is measured one way only. -/
theorem Measured.unique {m n t n' t' : ℕ} (h : Measured m n t) (h' : Measured m n' t') :
    n = n' ∧ t = t' := by
  have hsum : n + t = n' + t' :=
    le_antisymm (pow_le_of_lt h.le h'.lt) (pow_le_of_lt h'.le h.lt)
  -- more trailing zeros on one side would make the last digit of the other zero
  have key : ∀ {n t n' t' : ℕ}, Measured m n t → Measured m n' t' → t ≤ t' := by
    rintro n t n' t' ⟨q, hq, -⟩ ⟨q', hq', hdvd', -⟩
    by_contra hlt
    obtain ⟨j, rfl⟩ := Nat.exists_eq_add_of_le (show t' + 1 ≤ t by omega)
    refine hdvd' ⟨q * 10 ^ j, ?_⟩
    have hpos : 0 < 10 ^ t' := by positivity
    refine Nat.eq_of_mul_eq_mul_right hpos ?_
    calc q' * 10 ^ t' = q * 10 ^ (t' + 1 + j) := by rw [← hq', hq]
      _ = 10 * (q * 10 ^ j) * 10 ^ t' := by ring
  have ht := le_antisymm (key h h') (key h' h)
  omega

/-- **A shift of the point changes neither the digits nor where the last of them stands.** -/
theorem Measured.eq_of_value_eq {m n t m' n' t' : ℕ} {e e' : ℤ} (h : Measured m n t)
    (h' : Measured m' n' t') (hv : (m : ℚ) * 10 ^ e = m' * 10 ^ e') : n = n' ∧ e + t = e' + t' := by
  -- bring both to the smaller exponent
  have key : ∀ {m n t m' n' t' : ℕ} {e e' : ℤ}, Measured m n t → Measured m' n' t' →
      (m : ℚ) * 10 ^ e = m' * 10 ^ e' → e ≤ e' → n = n' ∧ e + t = e' + t' := by
    intro m n t m' n' t' e e' h h' hv hle
    obtain ⟨k, hk⟩ := Int.eq_ofNat_of_zero_le (show 0 ≤ e' - e by omega)
    have hne : (10 : ℚ) ^ e ≠ 0 := zpow_ne_zero _ (by norm_num)
    have hm : m = m' * 10 ^ k := by
      rw [show e' = (k : ℤ) + e by omega, zpow_add₀ (by norm_num), zpow_natCast, ← mul_assoc] at hv
      exact_mod_cast mul_right_cancel₀ hne hv
    obtain ⟨rfl, rfl⟩ := h.unique (hm ▸ h'.mul_pow k)
    exact ⟨rfl, by omega⟩
  rcases le_total e e' with hle | hle
  · exact key h h' hv hle
  · obtain ⟨hn, ht⟩ := key h' h hv.symm hle
    exact ⟨hn.symm, ht.symm⟩

/-! ## The three ways of counting -/

/-- Divide by ten while the last digit is zero: what is left, and how often. -/
def dropZeros : (fuel m : ℕ) → ℕ × ℕ
  | 0, m => (m, 0)
  | fuel + 1, m =>
    if m % 10 = 0 then ((dropZeros fuel (m / 10)).1, (dropZeros fuel (m / 10)).2 + 1) else (m, 0)

/-- The number of digits, dividing by ten until one is left. -/
def countDigits : (fuel m : ℕ) → ℕ
  | 0, _ => 1
  | fuel + 1, m => if 10 ≤ m then countDigits fuel (m / 10) + 1 else 1

theorem dropZeros_spec {fuel m : ℕ} (hm : m ≠ 0) (h : m < 10 ^ fuel) :
    m = (dropZeros fuel m).1 * 10 ^ (dropZeros fuel m).2 ∧ ¬ 10 ∣ (dropZeros fuel m).1 ∧
      (dropZeros fuel m).1 ≤ m := by
  induction fuel generalizing m with
  | zero =>
    rw [pow_zero] at h
    omega
  | succ fuel ih =>
    rw [dropZeros]
    split
    · rename_i hz
      obtain ⟨heq, hdvd, hle⟩ := ih (m := m / 10) (by omega) (by rw [pow_succ] at h; omega)
      refine ⟨?_, hdvd, by simp only; omega⟩
      simp only
      rw [pow_succ, ← mul_assoc, ← heq]
      omega
    · rename_i hz
      exact ⟨by simp, by simp only; omega, le_rfl⟩

theorem countDigits_spec {fuel m : ℕ} (hm : m ≠ 0) (h : m < 10 ^ fuel) :
    10 ^ countDigits fuel m ≤ m * 10 ∧ m < 10 ^ countDigits fuel m := by
  induction fuel generalizing m with
  | zero =>
    rw [pow_zero] at h
    omega
  | succ fuel ih =>
    rw [countDigits]
    split
    · obtain ⟨hle, hlt⟩ := ih (m := m / 10) (by omega) (by rw [pow_succ] at h; omega)
      rw [pow_succ]
      omega
    · omega

theorem measured_countDigits {fuel m : ℕ} (hm : m ≠ 0) (h : m < 10 ^ fuel) :
    Measured m (countDigits fuel (dropZeros fuel m).1) (dropZeros fuel m).2 := by
  obtain ⟨heq, hdvd, hle⟩ := dropZeros_spec hm h
  have hne : (dropZeros fuel m).1 ≠ 0 := fun h0 => hdvd (h0 ▸ dvd_zero 10)
  obtain ⟨h₁, h₂⟩ := countDigits_spec hne (lt_of_le_of_lt hle h)
  exact ⟨_, heq, hdvd, h₁, h₂⟩

/-- The positions of the first and the last digit that is not zero, digit by digit. -/
def spanStep (state : ℕ × Option (ℕ × ℕ)) (c : UInt8) : ℕ × Option (ℕ × ℕ) :=
  (state.1 + 1, if c = 48 then state.2 else some ((state.2.map Prod.fst).getD state.1, state.1))

def nonZeroSpan (s : Bytes) : Option (ℕ × ℕ) := (s.foldl spanStep (0, none)).2

theorem foldl_spanStep_fst (s : Bytes) (state : ℕ × Option (ℕ × ℕ)) :
    (s.foldl spanStep state).1 = state.1 + s.length := by
  induction s generalizing state with
  | nil => rfl
  | cons c s ih =>
    rw [foldl_cons, ih, length_cons, spanStep]
    omega

theorem nonZeroSpan_concat (s : Bytes) (c : UInt8) :
    nonZeroSpan (s ++ [c]) = if c = 48 then nonZeroSpan s
      else some (((nonZeroSpan s).map Prod.fst).getD s.length, s.length) := by
  have hlen := foldl_spanStep_fst s (0, none)
  rw [nonZeroSpan, foldl_append, foldl_cons, foldl_nil, spanStep, hlen]
  simp only [Nat.zero_add]
  rfl

/-- What the span of a run of digits says about the number. -/
def SpanMeasures (s : Bytes) : Option (ℕ × ℕ) → Prop
  | none => numeral s = 0
  | some (first, last) =>
    first ≤ last ∧ last < s.length ∧ Measured (numeral s) (last - first + 1) (s.length - 1 - last)

theorem spanMeasures_nonZeroSpan (h : ∀ c ∈ s, isDigitByte c = true) :
    SpanMeasures s (nonZeroSpan s) := by
  induction s using List.reverseRecOn with
  | nil => exact rfl
  | append_singleton s c ih =>
    have hc := h c (by simp)
    rw [isDigitByte_iff] at hc
    have hc48 : (48 : UInt8).toNat = 48 := rfl
    have hc57 : (57 : UInt8).toNat = 57 := rfl
    have hs := ih fun d hd => h d (by simp [hd])
    rw [nonZeroSpan_concat]
    split
    · rename_i hzero
      subst hzero
      cases hspan : nonZeroSpan s with
      | none =>
        rw [hspan] at hs
        have hs' : numeral s = 0 := hs
        simp [SpanMeasures, numeral_concat, hs']
      | some p =>
        obtain ⟨first, last⟩ := p
        rw [hspan] at hs
        obtain ⟨hle, hlt, hm⟩ := hs
        refine ⟨hle, by simp; omega, ?_⟩
        have hscaled := hm.mul_pow 1
        rw [pow_one] at hscaled
        rw [numeral_concat, length_append, length_singleton]
        rw [show s.length + 1 - 1 - last = s.length - 1 - last + 1 by omega]
        simpa using hscaled
    · rename_i hne
      have hne' : c.toNat ≠ 48 := fun h48 => hne (UInt8.toNat_inj.1 (by rw [h48, hc48]))
      cases hspan : nonZeroSpan s with
      | none =>
        rw [hspan] at hs
        have hs' : numeral s = 0 := hs
        refine ⟨le_rfl, by simp, ?_⟩
        simp only [Option.map_none, Option.getD_none, length_append, length_singleton,
          Nat.sub_self, Nat.add_sub_cancel, numeral_concat, hs']
        exact measured_concat (by omega) (by omega) (Or.inr rfl) (by norm_num)
      | some p =>
        obtain ⟨first, last⟩ := p
        rw [hspan] at hs
        obtain ⟨hle, hlt, hm⟩ := hs
        refine ⟨by simp; omega, by simp, ?_⟩
        simp only [Option.map_some, Option.getD_some, length_append, length_singleton,
          Nat.sub_self, Nat.add_sub_cancel, numeral_concat]
        have hsum : last - first + 1 + (s.length - 1 - last) = s.length - first := by omega
        have hlo := hm.le
        have hhi := hm.lt
        rw [hsum] at hlo hhi
        exact measured_concat (by omega) (by omega) (Or.inl hlo) hhi

/-- The length of a text without the zeros at its end, one byte being kept; the text is given from its
end. -/
def trimmedLen : Bytes → ℕ
  | c :: d :: s => if c = 48 then trimmedLen (d :: s) else s.length + 2
  | s => s.length

theorem trimmedLen_reverse {first last : ℕ} (h : nonZeroSpan s = some (first, last)) :
    trimmedLen s.reverse = last + 1 := by
  induction s using List.reverseRecOn generalizing first last with
  | nil => cases h
  | append_singleton s c ih =>
    rw [nonZeroSpan_concat] at h
    rw [reverse_append, reverse_singleton, singleton_append]
    cases hrev : s.reverse with
    | nil =>
      rw [reverse_eq_nil_iff] at hrev
      subst hrev
      split at h
      · cases h
      · cases h
        rfl
    | cons d r =>
      rw [trimmedLen]
      split at h
      · rename_i hzero
        rw [if_pos hzero, ← hrev]
        exact ih h
      · rename_i hne
        cases h
        have hlen := congrArg List.length hrev
        rw [length_reverse, length_cons] at hlen
        rw [if_neg hne]
        omega

theorem measured_trimmedLen {m : ℕ} (hm : m ≠ 0) :
    Measured m (trimmedLen (toBytes (natText m)).reverse)
      ((toBytes (natText m)).length - trimmedLen (toBytes (natText m)).reverse) := by
  have hs := spanMeasures_nonZeroSpan fun c (hc : c ∈ toBytes (natText m)) =>
    isDigitByte_of_mem_natText hc
  cases hspan : nonZeroSpan (toBytes (natText m)) with
  | none =>
    rw [hspan] at hs
    exact absurd ((numeral_natText m).symm.trans hs) hm
  | some p =>
    obtain ⟨first, last⟩ := p
    rw [hspan] at hs
    obtain ⟨hle, hlt, hmeas⟩ := hs
    rw [numeral_natText] at hmeas
    rw [trimmedLen_reverse hspan]
    have hlen : (toBytes (natText m)).length = (natText m).length := by simp [toBytes]
    -- the text has as many digits as the number, so the first of them is not zero
    have hfit : m < 10 ^ (natText m).length :=
      (length_natText_le_iff (length_natText_pos m).ne').1 le_rfl
    have hshort : ¬ last - first + 1 + ((natText m).length - 1 - last) < (natText m).length := by
      intro hlt'
      have hle' := (length_natText_le_iff (n := m)
        (show last - first + 1 + ((natText m).length - 1 - last) ≠ 0 by omega)).2 (by
          rw [← hlen]; exact hmeas.lt)
      omega
    have hfirst : first = 0 := by omega
    subst hfirst
    rw [show (toBytes (natText m)).length - (last + 1) = (toBytes (natText m)).length - 1 - last by
      omega]
    exact hmeas

/-! ## Leading zeros -/

theorem numeral_dropWhile (s : Bytes) : numeral (s.dropWhile (· = 48)) = numeral s := by
  induction s with
  | nil => rfl
  | cons c s ih =>
    by_cases hc : c = 48
    · subst hc
      rw [dropWhile_cons_of_pos (by decide), ih]
      rfl
    · rw [dropWhile_cons_of_neg (by simpa using hc)]

theorem numeral_lt (h : ∀ c ∈ s, isDigitByte c = true) : numeral s < 10 ^ s.length := by
  induction s with
  | nil => simp [numeral, numeralFrom]
  | cons c s ih =>
    have hs := ih fun b hb => h b (mem_cons_of_mem c hb)
    have hc : c.toNat - 48 ≤ 9 := by
      have hdigit := h c mem_cons_self
      rw [isDigitByte_iff] at hdigit
      have h57 : (57 : UInt8).toNat = 57 := rfl
      omega
    have hval : numeral (c :: s) = (c.toNat - 48) * 10 ^ s.length + numeral s := by
      have := numeral_append [c] s
      simpa [numeral, numeralFrom] using this
    rw [hval, length_cons, pow_succ]
    nlinarith [Nat.mul_le_mul_right (10 ^ s.length) hc]

/-- A number without leading zeros is at least the power of ten of its length. -/
theorem le_numeral {c : UInt8} (h : isDigitByte c = true) (hc : c ≠ 48) :
    10 ^ s.length ≤ numeral (c :: s) := by
  have hpos : 1 ≤ c.toNat - 48 := by
    rw [isDigitByte_iff] at h
    have h48 : (48 : UInt8).toNat = 48 := rfl
    have hne : c.toNat ≠ 48 := fun heq => hc (UInt8.toNat_inj.1 (heq.trans h48.symm))
    omega
  have hval : numeral (c :: s) = (c.toNat - 48) * 10 ^ s.length + numeral s := by
    have := numeral_append [c] s
    simpa [numeral, numeralFrom] using this
  rw [hval]
  nlinarith [Nat.mul_le_mul_right (10 ^ s.length) hpos]

/-- The length without leading zeros is the number of digits. -/
theorem length_dropWhile_eq (h : ∀ c ∈ s, isDigitByte c = true) {l : ℕ}
    (hle : 10 ^ l ≤ numeral s * 10) (hlt : numeral s < 10 ^ l) :
    (s.dropWhile (· = 48)).length = l := by
  have hmem : ∀ c ∈ s.dropWhile (· = 48), isDigitByte c = true :=
    fun c hc => h c (List.dropWhile_suffix _ |>.subset hc)
  have hbound := numeral_lt hmem
  rw [← numeral_dropWhile] at hle hlt
  cases hs : s.dropWhile (· = 48) with
  | nil =>
    rw [hs] at hle
    simp [numeral, numeralFrom] at hle
  | cons c r =>
    rw [hs] at hle hlt hbound hmem
    have hc : c ≠ 48 := by
      have := List.head?_dropWhile_not (· = 48) s
      rw [hs] at this
      simpa using this
    have hlow : 10 ^ r.length ≤ numeral (c :: r) := le_numeral (hmem c mem_cons_self) hc
    have h₁ : l ≤ (c :: r).length := pow_le_of_lt hle hbound
    have h₂ : r.length < l := (Nat.pow_lt_pow_iff_right (by norm_num)).1 (lt_of_le_of_lt hlow hlt)
    rw [length_cons] at h₁ ⊢
    omega

theorem length_natText_eq {w l : ℕ} (hle : 10 ^ l ≤ w * 10) (hlt : w < 10 ^ l) :
    (toBytes (natText w)).length = l := by
  have hpos : 0 < w := by
    by_contra h0
    rw [Nat.le_zero.1 (not_lt.1 h0)] at hle
    have : 0 < 10 ^ l := by positivity
    omega
  have hl : l ≠ 0 := by
    rintro rfl
    simp at hlt
    omega
  have hdrop := length_dropWhile_eq (s := toBytes (natText w))
    (fun c hc => isDigitByte_of_mem_natText hc) (l := l) (by rwa [numeral_natText])
    (by rwa [numeral_natText])
  have hshort : (toBytes (natText w)).length ≤ l := by
    rw [toBytes, length_map]
    exact (length_natText_le_iff hl).2 hlt
  have hsuffix := (List.dropWhile_suffix (l := toBytes (natText w)) (· = 48)).length_le
  omega

end Gombit
