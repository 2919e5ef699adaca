import Gombit.Foundations.Bytes

/-!
# UTF-8

The characters of a string of bytes (`runes`), and whether all of it is characters (`validUTF8`).
-/

namespace Gombit

def isContinuation (b : UInt8) : Bool := 0x80 ≤ b && b ≤ 0xbf

/-- The character of a lead byte and one more. -/
def rune2 (a b : UInt8) : Option ℕ :=
  if 0xc2 ≤ a ∧ a ≤ 0xdf ∧ isContinuation b then
    some ((a.toNat - 0xc0) * 64 + (b.toNat - 0x80))
  else none

/-- The character of a lead byte and two more: no overlong form, no surrogate. -/
def rune3 (a b c : UInt8) : Option ℕ :=
  if 0xe0 ≤ a ∧ a ≤ 0xef ∧ isContinuation b ∧ isContinuation c ∧ (a = 0xe0 → 0xa0 ≤ b) ∧
      (a = 0xed → b ≤ 0x9f) then
    some ((a.toNat - 0xe0) * 4096 + (b.toNat - 0x80) * 64 + (c.toNat - 0x80))
  else none

/-- The character of a lead byte and three more: no overlong form, none past the last character. -/
def rune4 (a b c d : UInt8) : Option ℕ :=
  if 0xf0 ≤ a ∧ a ≤ 0xf4 ∧ isContinuation b ∧ isContinuation c ∧ isContinuation d ∧
      (a = 0xf0 → 0x90 ≤ b) ∧ (a = 0xf4 → b ≤ 0x8f) then
    some ((a.toNat - 0xf0) * 262144 + (b.toNat - 0x80) * 4096 + (c.toNat - 0x80) * 64 +
      (d.toNat - 0x80))
  else none

/-- The characters that a loop over the string sees; `none` for a byte that is not part of one. -/
def runes : Bytes → List (Option ℕ)
  | [] => []
  | a :: rest =>
    if a < 0x80 then some a.toNat :: runes rest
    else
      match rest with
      | [] => [none]
      | b :: rest =>
        match rune2 a b with
        | some r => some r :: runes rest
        | none =>
          match rest with
          | [] => none :: runes [b]
          | c :: rest =>
            match rune3 a b c with
            | some r => some r :: runes rest
            | none =>
              match rest with
              | [] => none :: runes [b, c]
              | d :: rest =>
                match rune4 a b c d with
                | some r => some r :: runes rest
                | none => none :: runes (b :: c :: d :: rest)

/-- `utf8.ValidString`. -/
def validUTF8 (s : Bytes) : Bool := (runes s).all Option.isSome

/-! ## Valid strings -/

theorem isContinuation_ge {b : UInt8} (h : isContinuation b = true) : 0x80 ≤ b :=
  of_decide_eq_true (Bool.and_eq_true_iff.1 h).1

end Gombit
