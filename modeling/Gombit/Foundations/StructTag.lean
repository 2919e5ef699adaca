import Gombit.Foundations.Json
import Gombit.Foundations.Strays

/-!
# Struct tags

A struct tag is a list of names, each with a value in quotes. `tagGet` reads the value of a name the
way `reflect.StructTag.Get` does: the text between the quotes is the body of a Go string literal, and
is read as one (`unquoteGo`).

* `unquoteGo_of_plain`: a valid body without a backslash or a newline is read as it is.
* `weight_unquoteGo_lt`: one with a backslash, or with bytes that are part of no character, comes out
  lighter.
* `TagReads.skip`, `TagReads.found`: the value of a name in a tag that is written part by part.
-/

namespace Gombit

open List

/-! ## String literals -/

/-- An escape of one letter. -/
def letterEscape (e : UInt8) : Option UInt8 :=
  if e = 97 then some 7
  else if e = 98 then some 8
  else if e = 102 then some 12
  else if e = 110 then some 10
  else if e = 114 then some 13
  else if e = 116 then some 9
  else if e = 118 then some 11
  else if e = 92 ∨ e = 34 then some e
  else none

/-- A number in hexadecimal. -/
def hexValue (digits : Bytes) : Option ℕ :=
  digits.foldlM (fun v d => (unhex d).map fun x => v * 16 + x) 0

/-- A number in octal. -/
def octalValue (digits : Bytes) : Option ℕ :=
  digits.foldlM (fun v d => if 48 ≤ d ∧ d ≤ 55 then some (v * 8 + (d.toNat - 48)) else none) 0

/-- The character of `n` hexadecimal digits, and what follows them. -/
def unquoteUnicode (n : ℕ) (s : Bytes) : Option (Bytes × Bytes) :=
  if s.length < n then none
  else (hexValue (s.take n)).bind fun v =>
    if v.isValidChar then some (encodeRune v, s.drop n) else none

/-- The bytes that the escape stands for, and what follows it. -/
def unquoteEscape (e : UInt8) (s : Bytes) : Option (Bytes × Bytes) :=
  match letterEscape e with
  | some b => some ([b], s)
  | none =>
    if e = 120 then
      if s.length < 2 then none
      else (hexValue (s.take 2)).map fun v => ([UInt8.ofNat v], s.drop 2)
    else if e = 117 then unquoteUnicode 4 s
    else if e = 85 then unquoteUnicode 8 s
    else if 48 ≤ e ∧ e ≤ 55 then
      if s.length < 2 then none
      else (octalValue (e :: s.take 2)).bind fun v =>
        if v ≤ 255 then some ([UInt8.ofNat v], s.drop 2) else none
    else none

/-- The bytes of the replacement character. -/
def replacement : Bytes := [0xef, 0xbf, 0xbd]

/-- A character of several bytes, and what follows it; a byte that is part of none is replaced. -/
def unquoteRune (a : UInt8) (s : Bytes) : Bytes × Bytes :=
  match s with
  | [] => (replacement, [])
  | b :: s =>
    if (rune2 a b).isSome then ([a, b], s)
    else
      match s with
      | [] => (replacement, [b])
      | c :: s =>
        if (rune3 a b c).isSome then ([a, b, c], s)
        else
          match s with
          | [] => (replacement, [b, c])
          | d :: s =>
            if (rune4 a b c d).isSome then ([a, b, c, d], s) else (replacement, b :: c :: d :: s)

/-- What follows a backslash. -/
def unquoteBackslash : Bytes → Option (Bytes × Bytes)
  | [] => none
  | e :: s => unquoteEscape e s

/-- `strconv.UnquoteChar` in a string in quotes: the bytes of the character that starts with `a`, and
what follows it. -/
def unquoteChar (a : UInt8) (s : Bytes) : Option (Bytes × Bytes) :=
  if a = 34 ∨ a = 10 then none
  else if 0x80 ≤ a then some (unquoteRune a s)
  else if a = 92 then unquoteBackslash s
  else some ([a], s)

/-- The characters of a literal. `fuel` bounds their number. -/
def unquoteChars : ℕ → Bytes → Option Bytes
  | _, [] => some []
  | 0, _ :: _ => none
  | fuel + 1, a :: s =>
    (unquoteChar a s).bind fun p => (unquoteChars fuel p.2).map fun out => p.1 ++ out

/-- `strconv.Unquote` of a body in quotes. -/
def unquoteGo (s : Bytes) : Option Bytes :=
  if 92 ∉ s ∧ 10 ∉ s ∧ validUTF8 s then some s else unquoteChars s.length s

/-! ## Tags -/

/-- The text up to the quote that ends it, and what follows; a backslash escapes what is after it. -/
def scanQuoted : Bytes → Option (Bytes × Bytes)
  | [] => none
  | a :: s =>
    if a = 34 then some ([], s)
    else if a = 92 then
      match s with
      | [] => none
      | e :: s => (scanQuoted s).map fun p => (a :: e :: p.1, p.2)
    else (scanQuoted s).map fun p => (a :: p.1, p.2)

/-- A byte of a name in a tag. -/
def isTagByte (a : UInt8) : Bool := 32 < a && a ≠ 58 && a ≠ 34 && a ≠ 127

/-- `StructTag.Lookup`. `fuel` bounds the number of names. -/
def tagLookup (key : Bytes) : ℕ → Bytes → Option Bytes
  | 0, _ => none
  | fuel + 1, tag =>
    let tag := tag.dropWhile (· = 32)
    let name := tag.takeWhile isTagByte
    if name = [] then none
    else
      match tag.drop name.length with
      | colon :: open_ :: rest =>
        if colon = 58 ∧ open_ = 34 then
          (scanQuoted rest).bind fun p =>
            if name = key then unquoteGo p.1 else tagLookup key fuel p.2
        else none
      | _ => none

/-- `StructTag.Get`: the value of a name, or nothing. -/
def tagGet (tag key : Bytes) : Bytes := (tagLookup key tag.length tag).getD []

/-! ## Reading a literal -/

variable {s out : Bytes}

/-- A body without a backslash or a newline is read as it is. -/
theorem unquoteGo_of_plain (hslash : 92 ∉ s) (hline : 10 ∉ s) (hutf8 : validUTF8 s = true) :
    unquoteGo s = some s :=
  if_pos ⟨hslash, hline, hutf8⟩

/-- An ASCII byte that is no backslash. -/
def isEscapeByte (b : UInt8) : Bool := b < 0x80 && b ≠ 92

theorem isEscapeByte_of_unhex {d : UInt8} {x : ℕ} (h : unhex d = some x) : isEscapeByte d = true := by
  have hbound : d ≤ 102 ∧ d ≠ 92 := by
    unfold unhex at h
    split at h
    · rename_i hd
      refine ⟨UInt8.le_trans hd.2 (by decide), ?_⟩
      rintro rfl
      exact absurd hd.2 (by decide)
    · split at h
      · rename_i hd
        refine ⟨hd.2, ?_⟩
        rintro rfl
        exact absurd hd.1 (by decide)
      · split_ifs at h
        rename_i hd
        refine ⟨UInt8.le_trans hd.2 (by decide), ?_⟩
        rintro rfl
        exact absurd hd.2 (by decide)
  have hlt : d < 0x80 := UInt8.lt_of_le_of_lt hbound.1 (by decide)
  simp [isEscapeByte, hlt, hbound.2]

variable {digits rest : Bytes} {fuel : ℕ}

/-- The digits of a number that is read one after another. -/
theorem isEscapeByte_of_foldlM {f : ℕ → UInt8 → Option ℕ}
    (hf : ∀ v d w, f v d = some w → isEscapeByte d = true) {v w : ℕ}
    (h : digits.foldlM f v = some w) : ∀ d ∈ digits, isEscapeByte d = true := by
  induction digits generalizing v with
  | nil => intro d hd; cases hd
  | cons d digits ih =>
    rw [foldlM_cons] at h
    obtain ⟨v', hv', hrest⟩ := Option.bind_eq_some_iff.1 h
    intro d' hd'
    rcases mem_cons.1 hd' with rfl | hd'
    · exact hf v _ v' hv'
    · exact ih hrest d' hd'

theorem isEscapeByte_of_hexValue {w : ℕ} (h : hexValue digits = some w) :
    ∀ d ∈ digits, isEscapeByte d = true := by
  refine isEscapeByte_of_foldlM (fun v d w hd => ?_) h
  obtain ⟨x, hx, -⟩ := Option.map_eq_some_iff.1 hd
  exact isEscapeByte_of_unhex hx

theorem isEscapeByte_of_octalDigit {d : UInt8} (h : 48 ≤ d ∧ d ≤ 55) : isEscapeByte d = true := by
  have hlt : d < 0x80 := UInt8.lt_of_le_of_lt h.2 (by decide)
  have hne : d ≠ 92 := by
    rintro rfl
    exact absurd h.2 (by decide)
  simp [isEscapeByte, hlt, hne]

theorem isEscapeByte_of_octalValue {w : ℕ} (h : octalValue digits = some w) :
    ∀ d ∈ digits, isEscapeByte d = true := by
  refine isEscapeByte_of_foldlM (fun v d w hd => ?_) h
  split_ifs at hd
  exact isEscapeByte_of_octalDigit ‹_›

variable {a : UInt8} {r : ℕ}

theorem weight_cons_ascii (h : a < 0x80) (s : Bytes) : weight (a :: s) = 2 + weight s := by
  rw [weight, weight, strays_cons_ascii h, length_cons]
  omega

theorem weight_cons_le (a : UInt8) (s : Bytes) : weight (a :: s) ≤ 7 + weight s := by
  have := strays_cons_le a s
  simp only [weight, length_cons]
  omega

/-- The rest of a text after some of its first bytes, which are ASCII. -/
theorem weight_drop {n : ℕ} (hn : n ≤ s.length) (h : ∀ b ∈ s.take n, b < 0x80) :
    weight s = 2 * n + weight (s.drop n) := by
  induction n generalizing s with
  | zero => simp
  | succ n ih =>
    cases s with
    | nil => simp at hn
    | cons a s =>
      rw [take_succ_cons, forall_mem_cons] at h
      rw [weight_cons_ascii h.1, drop_succ_cons, ih (Nat.le_of_succ_le_succ hn) h.2]
      omega

theorem val_ofNat (hr : r.isValidChar) : (Char.ofNat r).val.toNat = r := by
  have hchar : Char.ofNat r = Char.ofNatAux r hr := dif_pos hr
  rw [hchar]
  rfl

theorem isContinuation_ofNat (n : ℕ) : isContinuation (UInt8.ofNat (n % 64 + 128)) = true := by
  simp only [isContinuation, Bool.and_eq_true, decide_eq_true_eq, UInt8.le_iff_toNat_le,
    UInt8.toNat_ofNat', UInt8.reduceToNat]
  norm_num
  omega

/-- A character that is encoded adds no stray. -/
theorem strays_encodeRune (hr : r.isValidChar) (t : Bytes) :
    strays (encodeRune r ++ t) = strays t := by
  have hval := val_ofNat hr
  have hbound : r < 0xd800 ∨ 0xdfff < r ∧ r < 0x110000 := hr
  unfold encodeRune String.utf8EncodeChar
  dsimp only
  rw [hval]
  split
  · exact strays_cons_ascii (by
      simp only [UInt8.lt_iff_toNat_lt, UInt8.toNat_ofNat', UInt8.reduceToNat]
      norm_num
      omega) t
  split
  · have h₂ : (rune2 (UInt8.ofNat (r / 64 % 32 + 192)) (UInt8.ofNat (r % 64 + 128))).isSome := by
      simp only [rune2, Option.isSome_ite, isContinuation_ofNat, UInt8.le_iff_toNat_le,
        UInt8.toNat_ofNat', UInt8.reduceToNat]
      norm_num
      omega
    exact strays_cons_tail (tailLen_one h₂ t) one_ne_zero
  split
  · have h₂ : ¬ (rune2 (UInt8.ofNat (r / 4096 % 16 + 224)) (UInt8.ofNat (r / 64 % 64 + 128))).isSome := by
      simp only [rune2, Option.isSome_ite, UInt8.le_iff_toNat_le, UInt8.toNat_ofNat',
        UInt8.reduceToNat]
      norm_num
      omega
    have h₃ : (rune3 (UInt8.ofNat (r / 4096 % 16 + 224)) (UInt8.ofNat (r / 64 % 64 + 128))
        (UInt8.ofNat (r % 64 + 128))).isSome := by
      simp only [rune3, Option.isSome_ite, isContinuation_ofNat, UInt8.le_iff_toNat_le,
        UInt8.toNat_ofNat', ← UInt8.toNat_inj, UInt8.reduceToNat]
      norm_num
      omega
    exact strays_cons_tail (tailLen_two h₂ h₃ t) two_ne_zero
  · have h₂ : ¬ (rune2 (UInt8.ofNat (r / 262144 % 8 + 240)) (UInt8.ofNat (r / 4096 % 64 + 128))).isSome := by
      simp only [rune2, Option.isSome_ite, UInt8.le_iff_toNat_le, UInt8.toNat_ofNat',
        UInt8.reduceToNat]
      norm_num
      omega
    have h₃ : ¬ (rune3 (UInt8.ofNat (r / 262144 % 8 + 240)) (UInt8.ofNat (r / 4096 % 64 + 128))
        (UInt8.ofNat (r / 64 % 64 + 128))).isSome := by
      simp only [rune3, Option.isSome_ite, UInt8.le_iff_toNat_le, UInt8.toNat_ofNat',
        UInt8.reduceToNat]
      norm_num
      omega
    have h₄ : (rune4 (UInt8.ofNat (r / 262144 % 8 + 240)) (UInt8.ofNat (r / 4096 % 64 + 128))
        (UInt8.ofNat (r / 64 % 64 + 128)) (UInt8.ofNat (r % 64 + 128))).isSome := by
      simp only [rune4, Option.isSome_ite, isContinuation_ofNat, UInt8.le_iff_toNat_le,
        UInt8.toNat_ofNat', ← UInt8.toNat_inj, UInt8.reduceToNat]
      norm_num
      omega
    exact strays_cons_tail (tailLen_three h₂ h₃ h₄ t) three_ne_zero

theorem weight_encodeRune_le (hr : r.isValidChar) (t : Bytes) :
    weight (encodeRune r ++ t) ≤ 8 + weight t := by
  have hlen : (encodeRune r).length ≤ 4 := by
    rw [encodeRune, String.length_utf8EncodeChar]
    exact Char.utf8Size_le_four _
  simp only [weight, strays_encodeRune hr, length_append]
  omega

theorem unquoteUnicode_spec {n : ℕ} (hn : 3 ≤ n) (h : unquoteUnicode n s = some (out, rest)) :
    ∃ n ≤ s.length, rest = s.drop n ∧ (∀ b ∈ s.take n, isEscapeByte b = true) ∧
      ∀ t, weight (out ++ t) < 2 * (n + 2) + weight t := by
  unfold unquoteUnicode at h
  split_ifs at h
  rename_i hlen
  obtain ⟨v, hv, hrune⟩ := Option.bind_eq_some_iff.1 h
  split_ifs at hrune
  rename_i hvalid
  cases hrune
  refine ⟨n, not_lt.1 hlen, rfl, isEscapeByte_of_hexValue hv, fun t => ?_⟩
  have := weight_encodeRune_le hvalid t
  omega

theorem letterEscape_lt {e b : UInt8} (h : letterEscape e = some b) : e < 0x80 ∧ b < 0x80 := by
  unfold letterEscape at h
  repeat' split at h
  all_goals first
    | (rename_i he; rcases he with rfl | rfl <;> cases h <;> decide)
    | cases h

/-- What an escape takes from the text: some ASCII bytes, which weigh more than what it gives. -/
theorem unquoteEscape_spec {e : UInt8} (h : unquoteEscape e s = some (out, rest)) :
    e < 0x80 ∧ ∃ n ≤ s.length, rest = s.drop n ∧ (∀ b ∈ s.take n, isEscapeByte b = true) ∧
      ∀ t, weight (out ++ t) < 2 * (n + 2) + weight t := by
  have hbyte : ∀ (b : UInt8) (t : Bytes), weight ([b] ++ t) < 2 * (2 + 2) + weight t := by
    intro b t
    have := weight_cons_le b t
    rw [singleton_append]
    omega
  unfold unquoteEscape at h
  split at h
  · rename_i b hletter
    cases h
    obtain ⟨he, hb⟩ := letterEscape_lt hletter
    refine ⟨he, 0, Nat.zero_le _, rfl, by simp, fun t => ?_⟩
    rw [singleton_append, weight_cons_ascii hb]
    omega
  · split at h
    · rename_i he
      split at h
      · cases h
      · rename_i hlen
        obtain ⟨v, hv, hpair⟩ := Option.map_eq_some_iff.1 h
        cases hpair
        exact ⟨he ▸ by decide, 2, by omega, rfl, isEscapeByte_of_hexValue hv, hbyte _⟩
    · split at h
      · rename_i he
        exact ⟨he ▸ by decide, unquoteUnicode_spec (by norm_num) h⟩
      · split at h
        · rename_i he
          exact ⟨he ▸ by decide, unquoteUnicode_spec (by norm_num) h⟩
        · split at h
          · rename_i he
            split at h
            · cases h
            · rename_i hlen
              obtain ⟨v, hv, hoctal⟩ := Option.bind_eq_some_iff.1 h
              split at hoctal
              · cases hoctal
                refine ⟨UInt8.lt_of_le_of_lt he.2 (by decide), 2, by omega, rfl, ?_, hbyte _⟩
                exact fun b hb => isEscapeByte_of_octalValue hv b (mem_cons_of_mem e hb)
              · cases hoctal
          · cases h

/-- A character of several bytes is kept, and a byte that is part of none is replaced. -/
theorem unquoteRune_eq (a : UInt8) (s : Bytes) :
    unquoteRune a s =
      if tailLen a s = 0 then (replacement, s)
      else (a :: s.take (tailLen a s), s.drop (tailLen a s)) := by
  unfold unquoteRune
  match s with
  | [] => rfl
  | [b] => by_cases h₂ : (rune2 a b).isSome <;> simp [tailLen, h₂]
  | [b, c] =>
    by_cases h₂ : (rune2 a b).isSome
    · simp [tailLen, h₂]
    · by_cases h₃ : (rune3 a b c).isSome <;> simp [tailLen, h₂, h₃]
  | b :: c :: d :: s =>
    by_cases h₂ : (rune2 a b).isSome
    · simp [tailLen, h₂]
    · by_cases h₃ : (rune3 a b c).isSome
      · simp [tailLen, h₂, h₃]
      · by_cases h₄ : (rune4 a b c d).isSome <;> simp [tailLen, h₂, h₃, h₄]

/-- What a character of several bytes takes from the text: bytes that are not ASCII. -/
theorem unquoteRune_spec (a : UInt8) (s : Bytes) :
    ∃ n ≤ s.length, (unquoteRune a s).2 = s.drop n ∧ ∀ b ∈ s.take n, 0x80 ≤ b := by
  rw [unquoteRune_eq]
  split
  · exact ⟨0, Nat.zero_le _, rfl, by simp⟩
  · rename_i hne
    obtain ⟨-, hle, hcont⟩ := tailLen_spec hne
    exact ⟨_, hle, rfl, fun b hb => isContinuation_ge (hcont b hb)⟩

theorem ne_of_isEscapeByte {b : UInt8} (h : isEscapeByte b = true) : b < 0x80 ∧ b ≠ 92 := by
  simpa [isEscapeByte] using h

/-- A text that is not read as it is: it has a backslash, or bytes that are part of no character. -/
def Rewritten (s : Bytes) : Prop := 92 ∈ s ∨ strays s ≠ 0

/-- One character weighs no more read than written, and less if it is read as something else. -/
theorem weight_unquoteChar (h : unquoteChar a s = some (out, rest)) (t : Bytes) :
    weight (out ++ t) + weight rest ≤ weight (a :: s) + weight t ∧
      (Rewritten (a :: s) →
        weight (out ++ t) + weight rest < weight (a :: s) + weight t ∨ Rewritten rest) := by
  rw [unquoteChar] at h
  split at h
  · cases h
  split at h
  · rename_i ha
    have hhigh : ¬ a < 0x80 := UInt8.not_lt.2 ha
    have hslash : a ≠ 92 := by
      rintro rfl
      exact hhigh (by decide)
    rw [unquoteRune_eq, Option.some.injEq] at h
    have hstrays := strays_cons hhigh s
    split at h
    · rename_i hzero
      cases h
      rw [if_pos hzero] at hstrays
      have hkept : strays (0xef :: 0xbf :: 0xbd :: t) = strays t :=
        strays_cons_tail (tailLen_two (by decide) (by decide) t) two_ne_zero
      have hout : weight (replacement ++ t) = 6 + weight t := by
        simp only [weight, replacement, cons_append, nil_append, hkept, length_cons]
        omega
      have hlt : weight (replacement ++ t) + weight s < weight (a :: s) + weight t := by
        rw [hout]
        simp only [weight, hstrays, length_cons]
        omega
      exact ⟨hlt.le, fun _ => .inl hlt⟩
    · rename_i hne
      cases h
      rw [if_neg hne] at hstrays
      obtain ⟨-, hle, hcont⟩ := tailLen_spec hne
      refine ⟨?_, fun hmem => .inr ?_⟩
      · simp only [weight, strays_rune hne, hstrays, length_append, length_cons,
          length_take, length_drop]
        omega
      · refine hmem.imp (fun hmem => ?_) fun hne' => hstrays ▸ hne'
        have hs : 92 ∈ s := (mem_cons.1 hmem).resolve_left (Ne.symm hslash)
        rw [← take_append_drop (tailLen a s) s] at hs
        rcases mem_append.1 hs with hs | hs
        · exact absurd (hcont 92 hs) (by decide)
        · exact hs
  rename_i hascii
  have hlow := UInt8.not_le.1 hascii
  split at h
  · rename_i ha
    subst ha
    cases s with
    | nil => cases h
    | cons e s =>
      obtain ⟨he, n, hn, rfl, hbytes, hout⟩ := unquoteEscape_spec h
      have hlt : weight (out ++ t) + weight (s.drop n) < weight (92 :: e :: s) + weight t := by
        have := hout t
        rw [weight_cons_ascii hlow, weight_cons_ascii he,
          weight_drop hn fun b hb => (ne_of_isEscapeByte (hbytes b hb)).1]
        omega
      exact ⟨hlt.le, fun _ => .inl hlt⟩
  · rename_i hslash
    cases h
    rw [singleton_append, weight_cons_ascii hlow, weight_cons_ascii hlow]
    refine ⟨by omega, fun hmem => .inr (hmem.imp (fun hmem => ?_) fun hne => ?_)⟩
    · exact (mem_cons.1 hmem).resolve_left fun hne => hslash hne.symm
    · rwa [strays_cons_ascii hlow] at hne

/-- **A body that is not read as it is comes out lighter.** -/
theorem weight_unquoteChars (h : unquoteChars fuel s = some out) :
    weight out ≤ weight s ∧ (Rewritten s → weight out < weight s) := by
  have hnil : ¬ Rewritten [] := by simp [Rewritten]
  induction fuel generalizing s out with
  | zero =>
    cases s with
    | nil =>
      cases h
      exact ⟨le_rfl, fun hmem => absurd hmem hnil⟩
    | cons a s => cases h
  | succ fuel ih =>
    cases s with
    | nil =>
      cases h
      exact ⟨le_rfl, fun hmem => absurd hmem hnil⟩
    | cons a s =>
      obtain ⟨⟨o, rest⟩, hchar, hrest⟩ := Option.bind_eq_some_iff.1 h
      obtain ⟨out', hout', rfl⟩ := Option.map_eq_some_iff.1 hrest
      obtain ⟨hle, hlt⟩ := weight_unquoteChar hchar out'
      obtain ⟨hle', hlt'⟩ := ih hout'
      dsimp only at hle' hlt' ⊢
      refine ⟨by omega, fun hmem => ?_⟩
      rcases hlt hmem with hlt | hmem
      · omega
      · have := hlt' hmem
        omega

theorem weight_unquoteGo_le (h : unquoteGo s = some out) : weight out ≤ weight s := by
  rw [unquoteGo] at h
  split at h
  · cases h
    exact le_rfl
  · exact (weight_unquoteChars h).1

theorem weight_unquoteGo_lt (hmem : Rewritten s) (h : unquoteGo s = some out) :
    weight out < weight s := by
  rw [unquoteGo, if_neg] at h
  · exact (weight_unquoteChars h).2 hmem
  · rintro ⟨hslash, -, hutf8⟩
    exact hmem.elim hslash fun hne => hne (validUTF8_iff.1 hutf8)

/-- A newline is refused. -/
theorem unquoteChars_newline (hslash : 92 ∉ s) (hline : 10 ∈ s) : unquoteChars fuel s = none := by
  induction fuel generalizing s with
  | zero =>
    cases s with
    | nil => cases hline
    | cons a s => rfl
  | succ fuel ih =>
    cases s with
    | nil => cases hline
    | cons a s =>
      rw [unquoteChars, Option.bind_eq_none_iff]
      rintro ⟨o, rest⟩ hchar
      rw [Option.map_eq_none_iff]
      have hne : a ≠ 92 := fun ha => hslash (ha ▸ mem_cons_self)
      have hs : 92 ∉ s := fun hs => hslash (mem_cons_of_mem a hs)
      rw [unquoteChar] at hchar
      split at hchar
      · cases hchar
      rename_i ha
      rw [not_or] at ha
      have hline' : 10 ∈ s := (mem_cons.1 hline).resolve_left (Ne.symm ha.2)
      split at hchar
      · obtain ⟨n, -, hdrop, hhigh⟩ := unquoteRune_spec a s
        rw [Option.some.injEq] at hchar
        rw [hchar] at hdrop
        dsimp only at hdrop
        rw [hdrop]
        refine ih (fun h => hs (mem_of_mem_drop h)) ?_
        rw [← take_append_drop n s] at hline'
        rcases mem_append.1 hline' with h | h
        · exact absurd (hhigh 10 h) (by decide)
        · exact h
      · cases hchar
        exact ih hs hline'

theorem unquoteGo_newline (hslash : 92 ∉ s) (hline : 10 ∈ s) : unquoteGo s = none := by
  rw [unquoteGo, if_neg fun hplain => hplain.2.1 hline]
  exact unquoteChars_newline hslash hline

/-! ## The quote that ends a value -/

/-- Each backslash of the text escapes a byte of it. -/
def closed : Bytes → Bool
  | [] => true
  | a :: s =>
    if a = 92 then
      match s with
      | [] => false
      | _ :: s => closed s
    else closed s

theorem closed_cons (h : a ≠ 92) (s : Bytes) : closed (a :: s) = closed s := by
  conv_lhs => unfold closed
  exact if_neg h

theorem closed_escape (e : UInt8) (s : Bytes) : closed (92 :: e :: s) = closed s := by
  conv_lhs => unfold closed
  exact if_pos rfl

theorem closed_of_notMem (h : 92 ∉ s) : closed s = true := by
  induction s with
  | nil => rfl
  | cons a s ih =>
    rw [closed_cons fun ha => h (ha ▸ mem_cons_self)]
    exact ih fun hs => h (mem_cons_of_mem a hs)

theorem closed_drop (h : closed s = true) (n : ℕ) (hn : 92 ∉ s.take n) :
    closed (s.drop n) = true := by
  induction n generalizing s with
  | zero => exact h
  | succ n ih =>
    cases s with
    | nil => rfl
    | cons a s =>
      rw [take_succ_cons, mem_cons, not_or] at hn
      rw [closed_cons (Ne.symm hn.1)] at h
      exact ih h hn.2

/-- A text whose last backslash escapes nothing ends in it. -/
theorem exists_of_not_closed (h : closed s = false) : ∃ t, s = t ++ [92] ∧ closed t = true := by
  fun_induction closed s with
  | case1 => cases h
  | case2 => exact ⟨[], rfl, rfl⟩
  | case3 e s ih =>
    obtain ⟨t, rfl, ht⟩ := ih h
    exact ⟨92 :: e :: t, rfl, by rwa [closed_escape]⟩
  | case4 a s ha ih =>
    obtain ⟨t, rfl, ht⟩ := ih h
    exact ⟨a :: t, rfl, by rwa [closed_cons ha]⟩

/-- A text without a quote is the value up to the next one, unless its last backslash escapes that
quote: the value then goes on. -/
theorem scanQuoted_append (hquote : 34 ∉ s) (rest : Bytes) :
    scanQuoted (s ++ 34 :: rest) = if closed s then some (s, rest)
      else (scanQuoted rest).map fun p => (s ++ 34 :: p.1, p.2) := by
  fun_induction closed s with
  | case1 =>
    rw [nil_append, scanQuoted.eq_def]
    rfl
  | case2 =>
    rw [cons_append, scanQuoted.eq_def]
    rfl
  | case3 e s ih =>
    have hs : 34 ∉ s := fun hs => hquote (mem_cons_of_mem _ (mem_cons_of_mem _ hs))
    rw [cons_append, scanQuoted.eq_def]
    simp only [cons_append, ih hs]
    cases closed s <;> simp [Function.comp_def]
  | case4 a s ha ih =>
    have hne : a ≠ 34 := fun h => hquote (h ▸ mem_cons_self)
    rw [cons_append, scanQuoted.eq_def]
    simp only [hne, ha, if_false, ih fun hs => hquote (mem_cons_of_mem _ hs)]
    cases closed s <;> simp [Function.comp_def]

theorem scanQuoted_closed (hclosed : closed s = true) (hquote : 34 ∉ s) (rest : Bytes) :
    scanQuoted (s ++ 34 :: rest) = some (s, rest) := by
  rw [scanQuoted_append hquote, if_pos hclosed]

/-- A byte that stands for itself in a literal. -/
def isLiteral (b : UInt8) : Bool := b < 0x80 && b ≠ 34 && b ≠ 10 && b ≠ 92

theorem unquoteChar_literal {b : UInt8} (h : isLiteral b = true) (s : Bytes) :
    unquoteChar b s = some ([b], s) := by
  simp only [isLiteral, Bool.and_eq_true, decide_eq_true_eq] at h
  obtain ⟨⟨⟨hlt, h₁⟩, h₂⟩, h₃⟩ := h
  rw [unquoteChar, if_neg (by simp [h₁, h₂]), if_neg (UInt8.not_le.2 hlt), if_neg h₃]

theorem unquoteChars_literal {t : Bytes} (ht : ∀ b ∈ t, isLiteral b = true)
    (h : unquoteChars fuel t = some out) : out = t := by
  induction t generalizing fuel out with
  | nil =>
    cases fuel <;> exact (Option.some.inj h).symm
  | cons b t ih =>
    cases fuel with
    | zero => cases h
    | succ fuel =>
      rw [unquoteChars, unquoteChar_literal (ht b mem_cons_self)] at h
      obtain ⟨out', hout', rfl⟩ := Option.map_eq_some_iff.1 h
      rw [ih (fun c hc => ht c (mem_cons_of_mem b hc)) hout']
      rfl

/-- A quote that is escaped is read, with what follows it. -/
theorem unquoteChars_quote {t : Bytes} (ht : ∀ b ∈ t, isLiteral b = true)
    (hclosed : closed s = true) (h : unquoteChars fuel (s ++ 92 :: 34 :: t) = some out) :
    ∃ w, out = w ++ 34 :: t := by
  induction fuel generalizing s out with
  | zero => cases s <;> cases h
  | succ fuel ih =>
    cases s with
    | nil =>
      have hchar : unquoteChar 92 (34 :: t) = some ([34], t) := by
        rw [unquoteChar, if_neg (by decide), if_neg (by decide), if_pos rfl]
        rfl
      rw [nil_append, unquoteChars, hchar] at h
      obtain ⟨out', hout', rfl⟩ := Option.map_eq_some_iff.1 h
      exact ⟨[], by rw [unquoteChars_literal ht hout']; rfl⟩
    | cons a s =>
      obtain ⟨⟨o, rest⟩, hchar, hrest⟩ := Option.bind_eq_some_iff.1 h
      obtain ⟨out', hout', rfl⟩ := Option.map_eq_some_iff.1 hrest
      -- what is left still ends in the escaped quote
      suffices hleft : ∃ s', rest = s' ++ 92 :: 34 :: t ∧ closed s' = true by
        obtain ⟨s', rfl, hclosed'⟩ := hleft
        obtain ⟨w, rfl⟩ := ih hclosed' hout'
        exact ⟨o ++ w, by simp⟩
      rw [append_eq] at hchar
      rw [unquoteChar] at hchar
      split at hchar
      · cases hchar
      split at hchar
      · rename_i ha
        have hne : a ≠ 92 := by
          rintro rfl
          exact absurd ha (by decide)
        rw [closed_cons hne] at hclosed
        obtain ⟨n, -, hdrop, hhigh⟩ := unquoteRune_spec a (s ++ 92 :: 34 :: t)
        have hn : 92 ∉ (s ++ 92 :: 34 :: t).take n := fun h => absurd (hhigh 92 h) (by decide)
        obtain ⟨hsplit, htake⟩ := drop_append_cons hn
        rw [Option.some.injEq] at hchar
        rw [hchar, hsplit] at hdrop
        exact ⟨s.drop n, hdrop, closed_drop hclosed n htake⟩
      split at hchar
      · rename_i ha
        subst ha
        cases s with
        | nil => cases hclosed
        | cons e s =>
          rw [closed_escape] at hclosed
          obtain ⟨-, n, -, hdrop, hbytes, -⟩ := unquoteEscape_spec hchar
          have hn : 92 ∉ (s ++ 92 :: 34 :: t).take n := fun h =>
            (ne_of_isEscapeByte (hbytes 92 h)).2 rfl
          obtain ⟨hsplit, htake⟩ := drop_append_cons hn
          exact ⟨s.drop n, hdrop.trans hsplit, closed_drop hclosed n htake⟩
      · rename_i ha
        cases hchar
        rw [closed_cons ha] at hclosed
        exact ⟨s, rfl, hclosed⟩

/-! ## Tags part by part -/

/-- The tag reads as the value, with fuel enough. -/
def TagReads (key tag : Bytes) (value : Option Bytes) : Prop :=
  ∀ fuel, tag.length ≤ fuel → tagLookup key fuel tag = value

theorem TagReads.get {key tag : Bytes} {value : Option Bytes} (h : TagReads key tag value) :
    tagGet tag key = value.getD [] := by
  rw [tagGet, h tag.length le_rfl]

theorem TagReads.nil (key : Bytes) : TagReads key [] none := by
  rintro (_ | fuel) -
  · rfl
  · rfl

/-- A name, and its value in quotes. -/
def tagPart (name value : Bytes) : Bytes := name ++ 58 :: 34 :: value ++ [34]

section Part

variable {key name value rest : Bytes} (hname : name ≠ []) (hbytes : ∀ b ∈ name, isTagByte b = true)

include hname hbytes in
/-- The first part of a tag, after a space if there is one. -/
theorem tagLookup_part (spaces : Bytes) (hspaces : ∀ b ∈ spaces, b = 32) (fuel : ℕ) :
    tagLookup key (fuel + 1) (spaces ++ tagPart name value ++ rest) =
      (scanQuoted (value ++ 34 :: rest)).bind fun p =>
        if name = key then unquoteGo p.1 else tagLookup key fuel p.2 := by
  obtain ⟨a, name, rfl⟩ := exists_cons_of_ne_nil hname
  have ha : (a = 32) = False := by
    have := hbytes a mem_cons_self
    rw [eq_iff_iff, iff_false]
    rintro rfl
    exact absurd this (by decide)
  have hdrop : (spaces ++ tagPart (a :: name) value ++ rest).dropWhile (· = 32) =
      a :: name ++ 58 :: 34 :: (value ++ 34 :: rest) := by
    rw [append_assoc, dropWhile_append_of_pos (by simpa using hspaces)]
    simp [tagPart, ha]
  have htake : (a :: name ++ 58 :: 34 :: (value ++ 34 :: rest)).takeWhile isTagByte = a :: name := by
    rw [takeWhile_append_of_pos hbytes, takeWhile_cons_of_neg (by decide), append_nil]
  rw [tagLookup, hdrop, htake, if_neg (cons_ne_nil a name), drop_left]
  simp

include hname hbytes in
theorem TagReads.skip {r : Option Bytes} (spaces : Bytes) (hspaces : ∀ b ∈ spaces, b = 32)
    (hvalue : closed value = true) (hquote : 34 ∉ value) (hne : name ≠ key)
    (h : TagReads key rest r) : TagReads key (spaces ++ tagPart name value ++ rest) r := by
  intro fuel hfuel
  simp only [tagPart, length_append, length_cons, length_nil] at hfuel
  obtain ⟨k, rfl⟩ : ∃ k, fuel = k + 1 := ⟨fuel - 1, by omega⟩
  rw [tagLookup_part hname hbytes spaces hspaces, scanQuoted_closed hvalue hquote, Option.bind_some,
    if_neg hne]
  exact h k (by omega)

include hname hbytes in
theorem TagReads.found (spaces : Bytes) (hspaces : ∀ b ∈ spaces, b = 32) (hkey : name = key) :
    TagReads key (spaces ++ tagPart name value ++ rest)
      ((scanQuoted (value ++ 34 :: rest)).bind fun p => unquoteGo p.1) := by
  intro fuel hfuel
  simp only [tagPart, length_append, length_cons, length_nil] at hfuel
  obtain ⟨k, rfl⟩ : ∃ k, fuel = k + 1 := ⟨fuel - 1, by omega⟩
  rw [tagLookup_part hname hbytes spaces hspaces]
  simp only [if_pos hkey]

end Part

end Gombit
