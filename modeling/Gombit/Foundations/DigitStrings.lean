import Gombit.Foundations.Json
import Gombit.Foundations.Significant

/-!
# Digit strings

Numbers in decimal, as strings of bytes. Among strings of one length the order by bytes is the order
of the numbers (`rank_lt_rank_iff`), so a number written with zeros in front (`zeroPad`) keeps its
place as long as it fits; a string is at the end of its length exactly when all its digits are nines
(`numeral_add_one_eq_iff`).
-/

namespace Gombit

open List

/-- A string of digits. -/
def Digits (s : Bytes) : Prop := ∀ b ∈ s, isDigitByte b = true

variable {s : Bytes}

theorem digits_cons {b : UInt8} : Digits (b :: s) ↔ isDigitByte b = true ∧ Digits s :=
  forall_mem_cons

/-! ## The number of a string -/

theorem numeral_cons (b : UInt8) (s : Bytes) :
    numeral (b :: s) = (b.toNat - 48) * 10 ^ s.length + numeral s := by
  have happend := numeral_append [b] s
  rwa [singleton_append, show numeral [b] = b.toNat - 48 by simp [numeral, numeralFrom]] at happend

/-- **Only nines have no next number of the same length.** -/
theorem numeral_add_one_eq_iff (h : Digits s) :
    numeral s + 1 = 10 ^ s.length ↔ ∀ b ∈ s, b = 57 := by
  induction s with
  | nil => simp [numeral, numeralFrom]
  | cons b s ih =>
    obtain ⟨hb, hs⟩ := digits_cons.1 h
    obtain ⟨hlo, hhi⟩ := isDigitByte_iff.1 hb
    have hlt := numeral_lt hs
    have hpow : 10 ^ (b :: s).length = 10 * 10 ^ s.length := by rw [length_cons, pow_succ]; ring
    rw [forall_mem_cons, ← ih hs, numeral_cons, hpow]
    constructor
    · intro heq
      -- A smaller first digit would leave the number too small.
      have hnine : b.toNat - 48 = 9 := by
        by_contra hne
        have hle : (b.toNat - 48) * 10 ^ s.length ≤ 8 * 10 ^ s.length :=
          Nat.mul_le_mul_right _ (by omega)
        omega
      rw [hnine] at heq
      exact ⟨UInt8.toNat_inj.1 (show b.toNat = 57 by omega), by omega⟩
    · rintro ⟨rfl, hrest⟩
      have hnine : (57 : UInt8).toNat - 48 = 9 := rfl
      rw [hnine]
      omega

/-- **Among digit strings of one length, the order by bytes is the order of the numbers.** -/
theorem rank_lt_rank_iff {t : Bytes} (hs : Digits s) (ht : Digits t) (hlen : s.length = t.length) :
    rank s < rank t ↔ numeral s < numeral t := by
  induction s generalizing t with
  | nil =>
    rw [eq_nil_of_length_eq_zero hlen.symm]
    simp
  | cons b s ih =>
    obtain ⟨c, t, rfl⟩ := exists_cons_of_length_eq_add_one hlen.symm
    obtain ⟨hb, hs⟩ := digits_cons.1 hs
    obtain ⟨hc, ht⟩ := digits_cons.1 ht
    have hlen' : s.length = t.length := Nat.succ.inj hlen
    have hblo := (isDigitByte_iff.1 hb).1
    have hclo := (isDigitByte_iff.1 hc).1
    have hslt := numeral_lt hs
    have htlt := numeral_lt ht
    rw [rank, rank, map_cons, map_cons, cons_lt_cons_iff, numeral_cons, numeral_cons,
      ← hlen']
    rw [← hlen'] at htlt
    -- Numbers that differ in their first digit are in the order of these digits.
    rcases lt_trichotomy b.toNat c.toNat with hlt | heq | hgt
    · have hle : (b.toNat - 48 + 1) * 10 ^ s.length ≤ (c.toNat - 48) * 10 ^ s.length :=
        Nat.mul_le_mul_right _ (by omega)
      rw [Nat.add_mul, Nat.one_mul] at hle
      simp only [hlt, true_or, true_iff]
      omega
    · simp only [heq, lt_irrefl, true_and, false_or, Nat.add_lt_add_iff_left]
      exact ih hs ht hlen'
    · have hle : (c.toNat - 48 + 1) * 10 ^ s.length ≤ (b.toNat - 48) * 10 ^ s.length :=
        Nat.mul_le_mul_right _ (by omega)
      rw [Nat.add_mul, Nat.one_mul] at hle
      simp only [not_lt_of_gt hgt, hgt.ne', false_and, or_self, false_iff, not_lt]
      omega

/-! ## Reading a number -/

theorem char_of_isDigitByte {b : UInt8} (h : isDigitByte b = true) :
    (Char.ofNat b.toNat).isDigit = true ∧ (Char.ofNat b.toNat).toNat - '0'.toNat = b.toNat - 48 ∧
      Char.ofNat b.toNat ≠ '+' ∧ Char.ofNat b.toNat ≠ '-' := by
  obtain ⟨hlo, hhi⟩ := isDigitByte_iff.1 h
  generalize b.toNat = k at hlo hhi
  interval_cases k <;> decide

theorem natOfDigits_latin1 (n : ℕ) (h : Digits s) :
    natOfDigits n (latin1 s) = some (numeralFrom n s) := by
  induction s generalizing n with
  | nil => rfl
  | cons b s ih =>
    obtain ⟨hb, hs⟩ := digits_cons.1 h
    obtain ⟨hdigit, hvalue, -⟩ := char_of_isDigitByte hb
    change natOfDigits n (Char.ofNat b.toNat :: latin1 s) = _
    rw [natOfDigits, if_pos hdigit, hvalue, ih _ hs, numeralFrom, numeralFrom, foldl_cons]

/-- **The integer of a digit string**, when it fits 64 bits. -/
theorem readInt_digits (h : Digits s) (hne : s ≠ []) :
    readInt s = if numeral s < 2 ^ 63 then some (Int64.ofInt (numeral s)) else none := by
  obtain ⟨b, s, rfl⟩ := exists_cons_of_ne_nil hne
  have hval : parseUint (latin1 (b :: s)) = some (numeral (b :: s)) := by
    rw [parseUint, if_neg (by simp [latin1]), natOfDigits_latin1 0 h, numeral]
  obtain ⟨-, -, hb⟩ := char_of_isDigitByte (digits_cons.1 h).1
  rw [readInt]
  unfold parseInt
  split
  · exact absurd (List.cons.inj ‹_›).1 hb.1
  · exact absurd (List.cons.inj ‹_›).1 hb.2
  · rw [hval]
    rfl

/-! ## Numbers of a given width -/

/-- A number with zeros in front, at least `w` digits long. -/
def zeroPad (w n : ℕ) : Bytes :=
  List.replicate (w - (natText n).length) 48 ++ toBytes (natText n)

theorem length_zeroPad (w n : ℕ) : (zeroPad w n).length = max w (natText n).length := by
  rw [zeroPad, length_append, length_replicate, toBytes, length_map]
  omega

theorem zeroPad_ne_nil (w n : ℕ) : zeroPad w n ≠ [] := by
  have htext := length_pos_iff.2 (natText_ne_nil n)
  have hlen := length_zeroPad w n
  exact length_pos_iff.1 (by omega)

theorem digits_zeroPad (w n : ℕ) : Digits (zeroPad w n) := by
  intro b hb
  rcases mem_append.1 hb with hb | hb
  · rw [eq_of_mem_replicate hb]
    rfl
  · obtain ⟨c, hc, rfl⟩ := mem_map.1 hb
    obtain ⟨d, hd, rfl⟩ := mem_natText hc
    exact isDigitByte_digitChar hd

theorem numeral_zeroPad (w n : ℕ) : numeral (zeroPad w n) = n := by
  have hzeros : ∀ k, numeral (List.replicate k 48) = 0 := by
    intro k
    induction k with
    | zero => rfl
    | succ k ih => simp [replicate_succ, numeral_cons, ih]
  rw [zeroPad, numeral_append, hzeros, numeral_natText, Nat.zero_mul, Nat.zero_add]

end Gombit
