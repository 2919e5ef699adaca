import Gombit.Foundations.ByteText
import Gombit.Foundations.Utf8

/-!
# Bytes that are part of no character

The bytes of a string that are part of no character (`strays`): a valid string has none. The
characters of a string are read part by part, as long as the second part does not continue a character
of the first (`runes_append`), and trimming takes whole characters away (`runes_trimSpace`).

The `weight` of a string counts a byte twice, and five times more if it is part of no character. It is
a measure for what rewrites a string: trimming does not make it grow (`weight_trimSpace_le`), and it
is that of the parts around an ASCII byte (`weight_append_cons`).
-/

namespace Gombit

open List

/-! ## The character at the start of a string -/

/-- The number of bytes that follow `a` in the character that starts with it; 0 if there is none. -/
def tailLen (a : UInt8) : Bytes → ℕ
  | [] => 0
  | [b] => if (rune2 a b).isSome then 1 else 0
  | [b, c] => if (rune2 a b).isSome then 1 else if (rune3 a b c).isSome then 2 else 0
  | b :: c :: d :: _ =>
    if (rune2 a b).isSome then 1
    else if (rune3 a b c).isSome then 2
    else if (rune4 a b c d).isSome then 3
    else 0

variable {a b : UInt8}

theorem isSome_rune2 (h : (rune2 a b).isSome) : 0xc2 ≤ a ∧ isContinuation b = true := by
  unfold rune2 at h
  split at h
  · rename_i hab
    exact ⟨hab.1, hab.2.2⟩
  · cases h

variable {c : UInt8}

theorem isSome_rune3 (h : (rune3 a b c).isSome) :
    0xc2 ≤ a ∧ isContinuation b = true ∧ isContinuation c = true := by
  unfold rune3 at h
  split at h
  · rename_i habc
    exact ⟨UInt8.le_trans (by decide) habc.1, habc.2.2.1, habc.2.2.2.1⟩
  · cases h

variable {d : UInt8}

theorem isSome_rune4 (h : (rune4 a b c d).isSome) :
    0xc2 ≤ a ∧ isContinuation b = true ∧ isContinuation c = true ∧ isContinuation d = true := by
  unfold rune4 at h
  split at h
  · rename_i habcd
    exact ⟨UInt8.le_trans (by decide) habcd.1, habcd.2.2.1, habcd.2.2.2.1, habcd.2.2.2.2.1⟩
  · cases h

theorem tailLen_one (h : (rune2 a b).isSome) (s : Bytes) : tailLen a (b :: s) = 1 := by
  match s with
  | [] => simp [tailLen, h]
  | [c] => simp [tailLen, h]
  | c :: d :: s => simp [tailLen, h]

theorem tailLen_two (h₂ : ¬ (rune2 a b).isSome) (h₃ : (rune3 a b c).isSome) (s : Bytes) :
    tailLen a (b :: c :: s) = 2 := by
  cases s <;> simp [tailLen, h₂, h₃]

theorem tailLen_three (h₂ : ¬ (rune2 a b).isSome) (h₃ : ¬ (rune3 a b c).isSome)
    (h₄ : (rune4 a b c d).isSome) (s : Bytes) : tailLen a (b :: c :: d :: s) = 3 := by
  simp [tailLen, h₂, h₃, h₄]

variable {s : Bytes}

/-- The characters of two, three and four bytes. -/
theorem tailLen_cases (h : tailLen a s ≠ 0) :
    (∃ b t, s = b :: t ∧ (rune2 a b).isSome) ∨
    (∃ b c t, s = b :: c :: t ∧ ¬ (rune2 a b).isSome ∧ (rune3 a b c).isSome) ∨
    ∃ b c d t, s = b :: c :: d :: t ∧ ¬ (rune2 a b).isSome ∧ ¬ (rune3 a b c).isSome ∧
      (rune4 a b c d).isSome := by
  match s with
  | [] => exact absurd rfl h
  | [b] =>
    by_cases h₂ : (rune2 a b).isSome
    · exact .inl ⟨b, [], rfl, h₂⟩
    · exact absurd (by simp [tailLen, h₂]) h
  | [b, c] =>
    by_cases h₂ : (rune2 a b).isSome
    · exact .inl ⟨b, [c], rfl, h₂⟩
    by_cases h₃ : (rune3 a b c).isSome
    · exact .inr (.inl ⟨b, c, [], rfl, h₂, h₃⟩)
    · exact absurd (by simp [tailLen, h₂, h₃]) h
  | b :: c :: d :: t =>
    by_cases h₂ : (rune2 a b).isSome
    · exact .inl ⟨b, c :: d :: t, rfl, h₂⟩
    by_cases h₃ : (rune3 a b c).isSome
    · exact .inr (.inl ⟨b, c, d :: t, rfl, h₂, h₃⟩)
    by_cases h₄ : (rune4 a b c d).isSome
    · exact .inr (.inr ⟨b, c, d, t, rfl, h₂, h₃, h₄⟩)
    · exact absurd (by simp [tailLen, h₂, h₃, h₄]) h

/-- What follows the lead byte of a character continues it. -/
theorem tailLen_spec (h : tailLen a s ≠ 0) :
    0xc2 ≤ a ∧ tailLen a s ≤ s.length ∧ ∀ b ∈ s.take (tailLen a s), isContinuation b = true := by
  rcases tailLen_cases h with ⟨b, t, rfl, h₂⟩ | ⟨b, c, t, rfl, h₂, h₃⟩ | ⟨b, c, d, t, rfl, h₂, h₃, h₄⟩
  · rw [tailLen_one h₂]
    simpa using isSome_rune2 h₂
  · rw [tailLen_two h₂ h₃]
    simpa using isSome_rune3 h₃
  · rw [tailLen_three h₂ h₃ h₄]
    simpa using isSome_rune4 h₄

/-- A character that is complete stays what it is whatever follows. -/
theorem tailLen_take (h : tailLen a s ≠ 0) (t : Bytes) :
    tailLen a (s.take (tailLen a s) ++ t) = tailLen a s := by
  rcases tailLen_cases h with ⟨b, r, rfl, h₂⟩ | ⟨b, c, r, rfl, h₂, h₃⟩ | ⟨b, c, d, r, rfl, h₂, h₃, h₄⟩
  · rw [tailLen_one h₂]
    exact tailLen_one h₂ t
  · rw [tailLen_two h₂ h₃]
    exact tailLen_two h₂ h₃ t
  · rw [tailLen_three h₂ h₃ h₄]
    exact tailLen_three h₂ h₃ h₄ t

variable {t : Bytes}

/-- What does not continue a character is no part of it. -/
theorem tailLen_append (a : UInt8) (s : Bytes) (ht : ∀ x ∈ t.head?, isContinuation x = false) :
    tailLen a (s ++ t) = tailLen a s := by
  cases t with
  | nil => rw [append_nil]
  | cons x t =>
    have hx : isContinuation x ≠ true := by simpa using ht x rfl
    have h₂ : rune2 a x = none := by
      by_contra hne
      exact hx (isSome_rune2 (Option.isSome_iff_ne_none.2 hne)).2
    have h₃ : ∀ {b c : UInt8}, b = x ∨ c = x → rune3 a b c = none := by
      intro b c hbc
      by_contra hne
      obtain ⟨-, hb, hc⟩ := isSome_rune3 (Option.isSome_iff_ne_none.2 hne)
      rcases hbc with rfl | rfl
      · exact hx hb
      · exact hx hc
    have h₄ : ∀ {b c d : UInt8}, b = x ∨ c = x ∨ d = x → rune4 a b c d = none := by
      intro b c d hbcd
      by_contra hne
      obtain ⟨-, hb, hc, hd⟩ := isSome_rune4 (Option.isSome_iff_ne_none.2 hne)
      rcases hbcd with rfl | rfl | rfl
      · exact hx hb
      · exact hx hc
      · exact hx hd
    match s with
    | [] =>
      match t with
      | [] => simp [tailLen, h₂]
      | [y] => simp [tailLen, h₂, h₃]
      | y :: z :: t => simp [tailLen, h₂, h₃, h₄]
    | [b] =>
      match t with
      | [] => simp [tailLen, h₃]
      | y :: t => simp [tailLen, h₃, h₄]
    | [b, c] => simp [tailLen, h₄]
    | b :: c :: d :: s => rfl

/-! ## The bytes outside the characters -/

/-- The number of bytes that are part of no character. -/
def strays (s : Bytes) : ℕ := (runes s).countP Option.isNone

theorem validUTF8_iff : validUTF8 s = true ↔ strays s = 0 := by
  rw [validUTF8, strays, all_eq_true, countP_eq_zero]
  simp [Option.isSome_iff_ne_none]

@[simp] theorem strays_nil : strays [] = 0 := rfl

theorem runes_cons_ascii (h : a < 0x80) (s : Bytes) : runes (a :: s) = some a.toNat :: runes s := by
  conv_lhs => unfold runes
  exact if_pos h

theorem strays_cons_ascii (h : a < 0x80) (s : Bytes) : strays (a :: s) = strays s := by
  rw [strays, runes_cons_ascii h, countP_cons_of_neg (by simp)]
  rfl

variable {r : ℕ}

theorem rune2_ge (h : rune2 a b = some r) : 128 ≤ r := by
  unfold rune2 at h
  split_ifs at h
  rename_i hab
  have hle := UInt8.le_iff_toNat_le.1 hab.1
  rw [Option.some.injEq] at h
  simp only [UInt8.reduceToNat] at hle
  omega

theorem rune3_ge (h : rune3 a b c = some r) : 128 ≤ r := by
  unfold rune3 at h
  split_ifs at h
  rename_i habc
  have hle := UInt8.le_iff_toNat_le.1 habc.1
  have hover := habc.2.2.2.2.1
  simp only [UInt8.reduceToNat] at hle
  rw [Option.some.injEq] at h
  rcases eq_or_ne a 0xe0 with ha | ha
  · have hb := UInt8.le_iff_toNat_le.1 (hover ha)
    simp only [UInt8.reduceToNat] at hb
    omega
  · have hne : a.toNat ≠ 0xe0 := fun heq => ha (UInt8.toNat_inj.1 heq)
    omega

theorem rune4_ge (h : rune4 a b c d = some r) : 128 ≤ r := by
  unfold rune4 at h
  split_ifs at h
  rename_i habcd
  have hle := UInt8.le_iff_toNat_le.1 habcd.1
  have hover := habcd.2.2.2.2.2.1
  simp only [UInt8.reduceToNat] at hle
  rw [Option.some.injEq] at h
  rcases eq_or_ne a 0xf0 with ha | ha
  · have hb := UInt8.le_iff_toNat_le.1 (hover ha)
    simp only [UInt8.reduceToNat] at hb
    omega
  · have hne : a.toNat ≠ 0xf0 := fun heq => ha (UInt8.toNat_inj.1 heq)
    omega

theorem runes_two (h : ¬ a < 0x80) (h₂ : rune2 a b = some r) (t : Bytes) :
    runes (a :: b :: t) = some r :: runes t := by
  conv_lhs => unfold runes
  simp [h, h₂]

theorem runes_three (h : ¬ a < 0x80) (h₂ : rune2 a b = none) (h₃ : rune3 a b c = some r)
    (t : Bytes) : runes (a :: b :: c :: t) = some r :: runes t := by
  conv_lhs => unfold runes
  simp [h, h₂, h₃]

theorem runes_four (h : ¬ a < 0x80) (h₂ : rune2 a b = none) (h₃ : rune3 a b c = none)
    (h₄ : rune4 a b c d = some r) (t : Bytes) :
    runes (a :: b :: c :: d :: t) = some r :: runes t := by
  conv_lhs => unfold runes
  simp [h, h₂, h₃, h₄]

/-- The string is a character, whatever follows it. -/
def Spells (c : Bytes) (r : ℕ) : Prop := ∀ t, runes (c ++ t) = some r :: runes t

theorem spells_ascii (h : a < 0x80) : Spells [a] a.toNat := runes_cons_ascii h

theorem exists_spells (hne : tailLen a s ≠ 0) :
    ∃ r ≥ 128, Spells (a :: s.take (tailLen a s)) r := by
  have ha : ¬ a < 0x80 :=
    UInt8.not_lt.2 (UInt8.le_trans (by decide : (0x80 : UInt8) ≤ 0xc2) (tailLen_spec hne).1)
  rcases tailLen_cases hne with ⟨b, t, rfl, h₂⟩ | ⟨b, c, t, rfl, h₂, h₃⟩ | ⟨b, c, d, t, rfl, h₂, h₃, h₄⟩
  · obtain ⟨r, hr⟩ := Option.isSome_iff_exists.1 h₂
    rw [tailLen_one h₂]
    exact ⟨r, rune2_ge hr, runes_two ha hr⟩
  · obtain ⟨r, hr⟩ := Option.isSome_iff_exists.1 h₃
    rw [tailLen_two h₂ h₃]
    exact ⟨r, rune3_ge hr, runes_three ha (Option.not_isSome_iff_eq_none.1 h₂) hr⟩
  · obtain ⟨r, hr⟩ := Option.isSome_iff_exists.1 h₄
    rw [tailLen_three h₂ h₃ h₄]
    exact ⟨r, rune4_ge hr, runes_four ha (Option.not_isSome_iff_eq_none.1 h₂)
      (Option.not_isSome_iff_eq_none.1 h₃) hr⟩

/-- A byte that is part of no character. -/
theorem runes_cons_stray (h : ¬ a < 0x80) (hzero : tailLen a s = 0) :
    runes (a :: s) = none :: runes s := by
  conv_lhs => unfold runes
  rw [if_neg h]
  rcases s with _ | ⟨b, _ | ⟨c, _ | ⟨d, s⟩⟩⟩
  · rfl
  all_goals
    simp only [tailLen] at hzero
    split_ifs at hzero
    simp_all

/-- The first character of a string that does not start in ASCII, or the byte that is none. -/
theorem runes_cons (h : ¬ a < 0x80) (s : Bytes) :
    ∃ o : Option ℕ, runes (a :: s) = o :: runes (s.drop (tailLen a s)) ∧
      (o = none ↔ tailLen a s = 0) ∧ ∀ r ∈ o, 128 ≤ r := by
  by_cases hzero : tailLen a s = 0
  · exact ⟨none, by rw [runes_cons_stray h hzero, hzero, drop_zero], by simp [hzero], by simp⟩
  · obtain ⟨r, hge, hr⟩ := exists_spells hzero
    have hfirst := hr (s.drop (tailLen a s))
    rw [cons_append, take_append_drop] at hfirst
    exact ⟨some r, hfirst, by simp [hzero], by simpa using hge⟩

/-- The bytes outside the characters after one character, or one byte. -/
theorem strays_cons (h : ¬ a < 0x80) (s : Bytes) :
    strays (a :: s) = if tailLen a s = 0 then strays s + 1 else strays (s.drop (tailLen a s)) := by
  obtain ⟨o, hrunes, hnone, -⟩ := runes_cons h s
  rw [strays, hrunes]
  split
  · rename_i hzero
    rw [hnone.2 hzero, hzero, countP_cons_of_pos rfl]
    rfl
  · rename_i hne
    obtain ⟨r, rfl⟩ := Option.ne_none_iff_exists'.1 fun ho => hne (hnone.1 ho)
    rw [countP_cons_of_neg (by simp)]
    rfl

/-- A character of several bytes is no stray. -/
theorem strays_cons_tail {n : ℕ} (h : tailLen a s = n) (hn : n ≠ 0) :
    strays (a :: s) = strays (s.drop n) := by
  subst h
  have ha := UInt8.not_lt.2 (UInt8.le_trans (by decide : (0x80 : UInt8) ≤ 0xc2) (tailLen_spec hn).1)
  rw [strays_cons ha, if_neg hn]

theorem not_lt_of_continuation (h : isContinuation a = true) : ¬ a < 0x80 :=
  UInt8.not_lt.2 (isContinuation_ge h)

/-- Bytes that continue no character are strays. -/
theorem strays_append_continuations (ht : ∀ b ∈ t, isContinuation b = true) (s : Bytes) :
    strays (t ++ s) = t.length + strays s := by
  induction t with
  | nil => simp
  | cons a t ih =>
    have ha := ht a mem_cons_self
    have hzero : tailLen a (t ++ s) = 0 := by
      by_contra hne
      have hle : a ≤ 0xbf := of_decide_eq_true (Bool.and_eq_true_iff.1 ha).2
      exact absurd (UInt8.le_trans (tailLen_spec hne).1 hle) (by decide)
    rw [cons_append, strays_cons (not_lt_of_continuation ha), if_pos hzero,
      ih fun b hb => ht b (mem_cons_of_mem a hb), length_cons]
    omega

/-- A byte more is at most one stray more. -/
theorem strays_cons_le (a : UInt8) (s : Bytes) : strays (a :: s) ≤ strays s + 1 := by
  by_cases h : a < 0x80
  · rw [strays_cons_ascii h]
    omega
  · rw [strays_cons h]
    split
    · exact le_rfl
    · rename_i hne
      have hs := strays_append_continuations (tailLen_spec hne).2.2 (s.drop (tailLen a s))
      rw [take_append_drop] at hs
      omega

theorem Spells.strays_append {c : Bytes} (h : Spells c r) (t : Bytes) :
    strays (c ++ t) = strays t := by
  rw [strays, h t, countP_cons_of_neg (by simp)]
  rfl

/-- **The characters of two parts**, of which the second does not continue the first. -/
theorem runes_append (s : Bytes) (ht : ∀ x ∈ t.head?, isContinuation x = false) :
    runes (s ++ t) = runes s ++ runes t := by
  -- the characters of the first part are read one after another
  induction hlen : s.length using Nat.strong_induction_on generalizing s with
  | _ n ih =>
    cases s with
    | nil => rfl
    | cons a s =>
      by_cases h : a < 0x80
      · rw [cons_append, runes_cons_ascii h, runes_cons_ascii h,
          ih s.length (by simp [← hlen]) s rfl, cons_append]
      · by_cases hzero : tailLen a s = 0
        · have hzero' : tailLen a (s ++ t) = 0 := (tailLen_append a s ht).trans hzero
          rw [cons_append, runes_cons_stray h hzero', runes_cons_stray h hzero,
            ih s.length (by simp [← hlen]) s rfl, cons_append]
        · obtain ⟨r, -, hr⟩ := exists_spells hzero
          have hsplit : a :: s = a :: s.take (tailLen a s) ++ s.drop (tailLen a s) := by
            rw [cons_append, take_append_drop]
          rw [hsplit, append_assoc, hr, hr, ih _ (by simp [← hlen]) _ rfl, cons_append]

/-- **The strays of two parts.** -/
theorem strays_append (s : Bytes) (ht : ∀ x ∈ t.head?, isContinuation x = false) :
    strays (s ++ t) = strays s + strays t := by
  rw [strays, runes_append s ht, countP_append]
  rfl

/-- A character before a text adds no stray. -/
theorem strays_rune (hne : tailLen a s ≠ 0) (t : Bytes) :
    strays (a :: s.take (tailLen a s) ++ t) = strays t := by
  obtain ⟨r, -, hr⟩ := exists_spells hne
  exact hr.strays_append t

/-! ## Weights -/

/-- Two for each byte, and five more if it is part of no character. -/
def weight (s : Bytes) : ℕ := 2 * s.length + 5 * strays s

theorem length_le_weight (s : Bytes) : 2 * s.length ≤ weight s := Nat.le_add_right _ _

theorem strays_of_ascii (h : ∀ b ∈ s, b < 0x80) : strays s = 0 := by
  induction s with
  | nil => rfl
  | cons a s ih =>
    rw [strays_cons_ascii (h a mem_cons_self)]
    exact ih fun b hb => h b (mem_cons_of_mem a hb)

theorem weight_of_ascii (h : ∀ b ∈ s, b < 0x80) : weight s = 2 * s.length := by
  rw [weight, strays_of_ascii h, Nat.mul_zero, Nat.add_zero]

variable {x : UInt8}

theorem strays_append_cons (hx : x < 0x80) (s t : Bytes) :
    strays (s ++ x :: t) = strays s + strays t := by
  rw [strays_append, strays_cons_ascii hx]
  rintro y ⟨⟩
  simp [isContinuation, UInt8.not_le.2 hx]

/-- **The weight of the parts around an ASCII byte.** -/
theorem weight_append_cons (hx : x < 0x80) (s t : Bytes) :
    weight (s ++ x :: t) = weight s + 2 + weight t := by
  simp only [weight, strays_append_cons hx, length_append, length_cons]
  omega

/-! ### Trimming -/

theorem rune2_of_isSpace2 (h : isSpace2 a b = true) : (rune2 a b).isSome := by
  simp only [isSpace2, Bool.and_eq_true, decide_eq_true_eq, Bool.or_eq_true] at h
  obtain ⟨rfl, rfl | rfl⟩ := h <;> decide

theorem rune3_of_isSpace3 (h : isSpace3 a b c = true) :
    ¬ (rune2 a b).isSome ∧ (rune3 a b c).isSome := by
  simp only [isSpace3, Bool.and_eq_true, decide_eq_true_eq, Bool.or_eq_true] at h
  rcases h with ((h | h) | h) | h
  · obtain ⟨⟨rfl, rfl⟩, rfl⟩ := h
    decide
  · obtain ⟨⟨rfl, rfl⟩, hc⟩ := h
    have hcont : isContinuation c = true := by
      rcases hc with ((⟨hle, hge⟩ | rfl) | rfl) | rfl
      · exact Bool.and_eq_true_iff.2
          ⟨decide_eq_true hle, decide_eq_true (UInt8.le_trans hge (by decide))⟩
      all_goals decide
    exact ⟨by decide, by simp [rune3, hcont, show isContinuation 0x80 = true from by decide]⟩
  · obtain ⟨⟨rfl, rfl⟩, rfl⟩ := h
    decide
  · obtain ⟨⟨rfl, rfl⟩, rfl⟩ := h
    decide

theorem isSpace1_lt (h : isSpace1 a = true) : a < 0x80 := by
  simp only [isSpace1, Bool.or_eq_true, Bool.and_eq_true, decide_eq_true_eq] at h
  rcases h with h | rfl
  · exact UInt8.lt_of_le_of_lt h.2 (by decide)
  · decide

theorem runes_drop_leadLen (s : Bytes) : runes (s.drop (leadLen s)) <:+ runes s := by
  have hlead : ∀ {a : UInt8}, 0xc2 ≤ a → ¬ a < 0x80 :=
    fun ha => UInt8.not_lt.2 (UInt8.le_trans (by decide) ha)
  refine spaceLen_cases (P := fun s n => runes (s.drop n) <:+ runes s) (fun s => suffix_rfl)
    ?_ ?_ ?_ s
  · intro a s ha
    rw [runes_cons_ascii (isSpace1_lt ha)]
    exact suffix_cons _ _
  · intro a b s hab
    have h₂ := rune2_of_isSpace2 hab
    obtain ⟨r, hr⟩ := Option.isSome_iff_exists.1 h₂
    rw [runes_two (hlead (isSome_rune2 h₂).1) hr]
    exact suffix_cons _ _
  · intro a b c s habc
    obtain ⟨h₂, h₃⟩ := rune3_of_isSpace3 habc
    obtain ⟨r, hr⟩ := Option.isSome_iff_exists.1 h₃
    rw [runes_three (hlead (isSome_rune3 h₃).1) (Option.not_isSome_iff_eq_none.1 h₂) hr]
    exact suffix_cons _ _

/-- The white space character at the end, which starts with a byte that continues none. -/
theorem exists_of_trailLen (s : Bytes) (hne : trailLen s ≠ 0) :
    ∃ a w, s.reverse = (s.drop (trailLen s)).reverse ++ a :: w ∧ isContinuation a = false ∧
      ∃ r, Spells (a :: w) r := by
  have hnot : ∀ {a : UInt8}, 0xc2 ≤ a → isContinuation a = false ∧ ¬ a < 0x80 := by
    intro a ha
    have : ¬ a ≤ 0xbf := UInt8.not_le.2 (UInt8.lt_of_lt_of_le (by decide) ha)
    exact ⟨by simp [isContinuation, this], UInt8.not_lt.2 (UInt8.le_trans (by decide) ha)⟩
  revert hne
  refine spaceLen_cases (P := fun s n => n ≠ 0 → ∃ a w, s.reverse = (s.drop n).reverse ++ a :: w ∧
    isContinuation a = false ∧ ∃ r, Spells (a :: w) r) (fun s hne => absurd rfl hne) ?_ ?_ ?_ s
  · intro a s ha _
    exact ⟨a, [], by simp, by simp [isContinuation, UInt8.not_le.2 (isSpace1_lt ha)], _,
      spells_ascii (isSpace1_lt ha)⟩
  · intro b a s hab _
    have h₂ := rune2_of_isSpace2 hab
    obtain ⟨hcont, hascii⟩ := hnot (isSome_rune2 h₂).1
    obtain ⟨r, hr⟩ := Option.isSome_iff_exists.1 h₂
    exact ⟨a, [b], by simp, hcont, r, runes_two hascii hr⟩
  · intro c b a s habc _
    obtain ⟨h₂, h₃⟩ := rune3_of_isSpace3 habc
    obtain ⟨hcont, hascii⟩ := hnot (isSome_rune3 h₃).1
    obtain ⟨r, hr⟩ := Option.isSome_iff_exists.1 h₃
    exact ⟨a, [b, c], by simp, hcont, r, runes_three hascii (Option.not_isSome_iff_eq_none.1 h₂) hr⟩

theorem runes_drop_trailLen (s : Bytes) :
    runes (s.drop (trailLen s)).reverse <+: runes s.reverse := by
  by_cases hne : trailLen s = 0
  · rw [hne]
    exact prefix_rfl
  · obtain ⟨a, w, heq, ha, -⟩ := exists_of_trailLen s hne
    rw [heq, runes_append _ (by rintro x ⟨⟩; exact ha)]
    exact prefix_append _ _

theorem runes_trimRight (s : Bytes) : runes (trimRight s) <+: runes s := by
  have hright : ∀ (n : ℕ) (s : Bytes), runes (trimBy trailLen n s).reverse <+: runes s.reverse := by
    intro n
    induction n with
    | zero => exact fun s => prefix_rfl
    | succ n ih =>
      intro s
      rw [trimBy]
      split
      · exact prefix_rfl
      · exact (ih _).trans (runes_drop_trailLen s)
  simpa [trimRight] using hright s.length s.reverse

theorem runes_trimLeft (s : Bytes) : runes (trimLeft s) <:+ runes s := by
  have hleft : ∀ (n : ℕ) (s : Bytes), runes (trimBy leadLen n s) <:+ runes s := by
    intro n
    induction n with
    | zero => exact fun s => suffix_rfl
    | succ n ih =>
      intro s
      rw [trimBy]
      split
      · exact suffix_rfl
      · exact (ih _).trans (runes_drop_leadLen s)
  exact hleft s.length s

/-- **Trimming takes whole characters away.** -/
theorem runes_trimSpace (s : Bytes) : runes (trimSpace s) <:+: runes s :=
  (runes_trimRight (trimLeft s)).isInfix.trans (runes_trimLeft s).isInfix

theorem strays_trimSpace_le (s : Bytes) : strays (trimSpace s) ≤ strays s :=
  (runes_trimSpace s).sublist.countP_le

/-- **Trimming does not add weight.** -/
theorem weight_trimSpace_le (s : Bytes) : weight (trimSpace s) ≤ weight s := by
  have hlen := length_trimSpace_le s
  have hstrays := strays_trimSpace_le s
  unfold weight
  omega

/-! ### Removing a byte -/

theorem strays_filter_le (hx : x < 0x80) (s : Bytes) :
    strays (s.filter fun b => b ≠ x) ≤ strays s := by
  induction hlen : s.length using Nat.strong_induction_on generalizing s with
  | _ n ih =>
    cases s with
    | nil => exact le_rfl
    | cons a s =>
      have hs := ih s.length (by simp [← hlen]) s rfl
      by_cases ha : a < 0x80
      · rw [strays_cons_ascii ha, filter_cons]
        split
        · rwa [strays_cons_ascii ha]
        · exact hs
      · have hne : ∀ {b : UInt8}, ¬ b < 0x80 → (fun b => decide (b ≠ x)) b = true := by
          rintro b hb
          exact decide_eq_true fun hbx => hb (hbx ▸ hx)
        rw [filter_cons, if_pos (hne ha), strays_cons ha s]
        split
        · exact (strays_cons_le a _).trans (Nat.succ_le_succ hs)
        · rename_i htail
          -- the character keeps its bytes, and only what follows it is filtered
          obtain ⟨-, hle, hcont⟩ := tailLen_spec htail
          have hkeep : (s.take (tailLen a s)).filter (fun b => b ≠ x) = s.take (tailLen a s) :=
            filter_eq_self.2 fun b hb => hne (not_lt_of_continuation (hcont b hb))
          conv_lhs => rw [← take_append_drop (tailLen a s) s]
          rw [filter_append, hkeep, ← cons_append, strays_rune htail]
          exact ih _ (by simp [← hlen]) _ rfl

/-- **Removing an ASCII byte takes weight away.** -/
theorem weight_filter_le (hx : x < 0x80) (s : Bytes) :
    weight (s.filter fun b => b ≠ x) ≤ weight s ∧
      (x ∈ s → weight (s.filter fun b => b ≠ x) < weight s) := by
  have hstrays := strays_filter_le hx s
  have hle := length_filter_le (fun b => b ≠ x) s
  unfold weight
  refine ⟨by omega, fun hmem => ?_⟩
  have hlt : (s.filter fun b => b ≠ x).length < s.length := by
    refine length_filter_lt_length_iff_exists.2 ⟨x, hmem, ?_⟩
    simp
  omega

/-! ### Parts -/

theorem sum_weight_intercalate {vs : List Bytes} (hx : x < 0x80) (hne : vs ≠ []) :
    (vs.map fun v => weight v + 2).sum = weight ([x].intercalate vs) + 2 := by
  induction vs with
  | nil => exact absurd rfl hne
  | cons v vs ih =>
    rcases eq_or_ne vs [] with rfl | hvs
    · simp
    · rw [map_cons, sum_cons, ih hvs, intercalate_cons x hvs, weight_append_cons hx]
      omega

/-- The parts of a string around an ASCII byte weigh what the string weighs. -/
theorem sum_weight_splitOn (hx : x < 0x80) (s : Bytes) :
    ((s.splitOn x).map fun t => weight t + 2).sum = weight s + 2 := by
  rw [sum_weight_intercalate hx (splitOn_ne_nil x s), intercalate_splitOn]

end Gombit
