import Gombit.Foundations.FixedPoint

/-!
# Integers as text

`natText` and `intText` write an integer in decimal; `parseUint` and `parseInt` read one, the second
refusing what does not fit 64 bits. Reading gives back what was written: `parseUint_natText`,
`parseInt_intText`.
-/

namespace Gombit

open List

/-- An integer in decimal. -/
def intText (n : ℤ) : List Char := signText n ++ natText n.natAbs

/-- The number that the digits continue. -/
def natOfDigits : ℕ → List Char → Option ℕ
  | n, [] => some n
  | n, c :: cs => if c.isDigit then natOfDigits (n * 10 + (c.toNat - '0'.toNat)) cs else none

/-- A number in decimal: digits, at least one. -/
def parseUint (s : List Char) : Option ℕ := if s = [] then none else natOfDigits 0 s

/-- A number with a sign, if it fits 64 bits. -/
def signedInt (neg : Bool) (n : ℕ) : Option Int64 :=
  if neg then if n ≤ 2 ^ 63 then some (Int64.ofInt (-n)) else none
  else if n < 2 ^ 63 then some (Int64.ofInt n) else none

/-- An integer in decimal, with or without a sign, that fits 64 bits. -/
def parseInt (s : List Char) : Option Int64 :=
  match s with
  | '+' :: digits => (parseUint digits).bind (signedInt false)
  | '-' :: digits => (parseUint digits).bind (signedInt true)
  | digits => (parseUint digits).bind (signedInt false)

theorem natOfDigits_map_digitChar (n : ℕ) {l : List ℕ} (h : ∀ d ∈ l, d < 10) :
    natOfDigits n (l.map Nat.digitChar) = some (l.foldl (fun n d => n * 10 + d) n) := by
  induction l generalizing n with
  | nil => rfl
  | cons d l ih =>
    have hd : d < 10 := h d mem_cons_self
    have hdigit : (Nat.digitChar d).isDigit = true ∧ (Nat.digitChar d).toNat - '0'.toNat = d := by
      interval_cases d <;> decide
    rw [map_cons, natOfDigits, if_pos hdigit.1, hdigit.2,
      ih _ fun d' hd' => h d' (mem_cons_of_mem d hd'), foldl_cons]

theorem natText_ne_nil (n : ℕ) : natText n ≠ [] := by
  unfold natText
  split
  · simp
  · rename_i hn
    simpa [Nat.digits_eq_nil_iff_eq_zero] using hn

/-- **Reading a number gives back the number written.** -/
theorem parseUint_natText (n : ℕ) : parseUint (natText n) = some n := by
  rw [parseUint, if_neg (natText_ne_nil n), natText]
  split
  · rename_i hn
    subst hn
    rfl
  · have hlt : ∀ d ∈ (Nat.digits 10 n).reverse, d < 10 := fun d hd =>
      Nat.digits_lt_base (by norm_num) (mem_reverse.1 hd)
    rw [natOfDigits_map_digitChar 0 hlt, foldl_reverse]
    have hfold := Nat.ofDigits_eq_foldr 10 (Nat.digits 10 n)
    rw [Nat.ofDigits_digits] at hfold
    conv_rhs => rw [hfold]
    congr 2
    funext d m
    simp only [Nat.cast_id]
    ring

theorem natText_injective : Function.Injective natText := by
  intro m n h
  have hparse := parseUint_natText m
  rw [h, parseUint_natText] at hparse
  exact (Option.some.inj hparse).symm

/-- A number starts with a digit, never with a sign. -/
theorem natText_ne_sign (n : ℕ) (cs : List Char) :
    natText n ≠ '+' :: cs ∧ natText n ≠ '-' :: cs := by
  constructor <;>
  · intro h
    obtain ⟨d, hd, hc⟩ := mem_natText (h ▸ mem_cons_self : _ ∈ natText n)
    interval_cases d <;> exact absurd hc (by decide)

/-- **Reading an integer gives back the integer written.** -/
theorem parseInt_intText (n : Int64) : parseInt (intText n.toInt) = some n := by
  have hlt := Int64.toInt_lt n
  have hle := Int64.le_toInt n
  unfold intText signText
  split
  · have habs : n.toInt.natAbs ≤ 2 ^ 63 := by omega
    have hneg : (-(n.toInt.natAbs : ℤ)) = n.toInt := by omega
    simp only [singleton_append, parseInt, parseUint_natText, Option.bind_some, signedInt,
      if_true, if_pos habs, hneg, Int64.ofInt_toInt]
  · have habs : n.toInt.natAbs < 2 ^ 63 := by omega
    have hpos : (n.toInt.natAbs : ℤ) = n.toInt := by omega
    rw [nil_append]
    unfold parseInt
    split
    · exact absurd ‹_› (natText_ne_sign _ _).1
    · exact absurd ‹_› (natText_ne_sign _ _).2
    · simp only [parseUint_natText, Option.bind_some, signedInt, Bool.false_eq_true, if_false,
        if_pos habs, hpos, Int64.ofInt_toInt]

/-! ## The digits of what is read -/

variable {cs s : List Char} {n : Int64}

theorem isDigit_of_natOfDigits {n m : ℕ} (h : natOfDigits n cs = some m) :
    ∀ c ∈ cs, c.isDigit = true := by
  induction cs generalizing n with
  | nil => exact fun c hc => by cases hc
  | cons c cs ih =>
    rw [natOfDigits] at h
    split_ifs at h
    rw [forall_mem_cons]
    exact ⟨‹_›, ih h⟩

theorem isDigit_of_parseUint {n : ℕ} (h : parseUint s = some n) :
    ∀ c ∈ s, c.isDigit = true := by
  rw [parseUint] at h
  split_ifs at h
  exact isDigit_of_natOfDigits h

/-- An integer that is read consists of digits and a sign. -/
theorem mem_of_parseInt (h : parseInt s = some n) {c : Char} (hc : c ∈ s) :
    c.isDigit = true ∨ c = '+' ∨ c = '-' := by
  unfold parseInt at h
  split at h
  all_goals obtain ⟨m, hm, -⟩ := Option.bind_eq_some_iff.1 h
  · rcases mem_cons.1 hc with rfl | hc
    · exact .inr (.inl rfl)
    · exact .inl (isDigit_of_parseUint hm c hc)
  · rcases mem_cons.1 hc with rfl | hc
    · exact .inr (.inr rfl)
    · exact .inl (isDigit_of_parseUint hm c hc)
  · exact .inl (isDigit_of_parseUint hm c hc)

/-! ## No text of a number is shorter -/

theorem natOfDigits_lt {n m : ℕ} (h : natOfDigits n cs = some m) :
    m < (n + 1) * 10 ^ cs.length := by
  induction cs generalizing n with
  | nil =>
    cases h
    simp
  | cons c cs ih =>
    rw [natOfDigits] at h
    split_ifs at h
    rename_i hdigit
    have hdigit' : c.toNat ≤ '9'.toNat := by
      simp only [Char.isDigit, Bool.and_eq_true, decide_eq_true_eq] at hdigit
      exact hdigit.2
    have hle : n * 10 + (c.toNat - '0'.toNat) + 1 ≤ (n + 1) * 10 := by
      have h9 : '9'.toNat = 57 := rfl
      have h0 : '0'.toNat = 48 := rfl
      omega
    calc m < (n * 10 + (c.toNat - '0'.toNat) + 1) * 10 ^ cs.length := ih h
      _ ≤ (n + 1) * 10 * 10 ^ cs.length := Nat.mul_le_mul_right _ hle
      _ = (n + 1) * 10 ^ (c :: cs).length := by rw [length_cons, pow_succ]; ring

theorem length_natText_le {n : ℕ} (h : parseUint s = some n) :
    (natText n).length ≤ s.length := by
  rw [parseUint] at h
  split_ifs at h
  rename_i hne
  rw [length_natText_le_iff (length_pos_iff.2 hne).ne']
  simpa using natOfDigits_lt h

theorem toInt_signedInt {neg : Bool} {m : ℕ} (h : signedInt neg m = some n) :
    n.toInt = if neg then -(m : ℤ) else m := by
  rw [signedInt] at h
  split at h
  · split at h
    · cases h
      rw [Int64.toInt_ofInt_of_le (by omega) (by omega), if_pos ‹_›]
    · cases h
  · split at h
    · cases h
      rw [Int64.toInt_ofInt_of_le (by omega) (by omega), if_neg ‹_›]
    · cases h

/-- **No text of an integer is shorter than the one that is written.** -/
theorem length_intText_le (h : parseInt s = some n) :
    (intText n.toInt).length ≤ s.length := by
  unfold parseInt at h
  split at h
  all_goals
    obtain ⟨m, hm, hsigned⟩ := Option.bind_eq_some_iff.1 h
    have hlen := length_natText_le hm
    rw [toInt_signedInt hsigned, intText, signText]
    simp only [Bool.false_eq_true, if_false, if_true, length_append, length_cons,
      Int.natAbs_neg, Int.natAbs_natCast]
  · rw [if_neg (by omega)]
    simp only [length_nil]
    omega
  · split <;> simp <;> omega
  · rw [if_neg (by omega)]
    simpa using hlen

end Gombit
