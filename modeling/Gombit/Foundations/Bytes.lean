import Gombit.Foundations.Numerals

/-!
# Byte strings and their codings

* `lengthPrefixed`, `frames`: strings written one after another, each after its length. The text
  splits one way only (`frames_injective`).
* `percentEscape`, `percentUnescape`: bytes written as `%` and two hexadecimal digits
  (`percentUnescape_percentEscape`).
* `base64`, `unbase64`: the URL alphabet without padding (`unbase64_base64`).
-/

namespace Gombit

open List

/-- A string of bytes. -/
abbrev Bytes := List UInt8

instance : LawfulBEq Bytes := inferInstance

/-- The bytes of a text, each character being one. -/
def toBytes (s : List Char) : Bytes := s.map fun c => UInt8.ofNat c.toNat

/-- The bytes of an ASCII literal. -/
def ascii (s : String) : Bytes := toBytes s.toList

/-- The text with a character for each byte. -/
def latin1 (s : Bytes) : List Char := s.map fun b => Char.ofNat b.toNat

theorem latin1_toBytes {s : List Char} (h : ∀ c ∈ s, c.toNat < 256) : latin1 (toBytes s) = s := by
  rw [latin1, toBytes, map_map]
  conv_rhs => rw [← map_id s]
  refine map_congr_left fun c hc => ?_
  simp only [Function.comp_apply, UInt8.toNat_ofNat', Nat.mod_eq_of_lt (h c hc), id_eq]
  exact Char.ofNat_toNat c

/-! ## Integers -/

variable {n : ℕ} {s : Bytes}

theorem toNat_lt_of_mem_natText {c : Char} (h : c ∈ natText n) : c.toNat < 58 := by
  obtain ⟨d, hd, rfl⟩ := mem_natText h
  interval_cases d <;> decide

/-- `strconv.FormatInt`: an integer in decimal. -/
def formatInt (n : Int64) : Bytes := toBytes (intText n.toInt)

/-- `strconv.ParseInt`: an integer of 64 bits in decimal. -/
def readInt (s : Bytes) : Option Int64 := parseInt (latin1 s)

theorem mem_intText {n : ℤ} {c : Char} (h : c ∈ intText n) : 45 ≤ c.toNat ∧ c.toNat ≤ 57 := by
  rcases mem_append.1 h with h | h
  · unfold signText at h
    split at h
    · rw [mem_singleton.1 h]
      decide
    · cases h
  · obtain ⟨d, hd, rfl⟩ := mem_natText h
    interval_cases d <;> decide

variable {b : UInt8} {keep : UInt8 → Bool}

/-- An integer is written with digits and a sign. -/
theorem mem_formatInt {n : Int64} (h : b ∈ formatInt n) : 45 ≤ b ∧ b ≤ 57 := by
  obtain ⟨c, hc, rfl⟩ := mem_map.1 h
  obtain ⟨hle, hge⟩ := mem_intText hc
  rw [UInt8.le_iff_toNat_le, UInt8.le_iff_toNat_le, UInt8.toNat_ofNat', Nat.mod_eq_of_lt (by omega)]
  exact ⟨hle, hge⟩

@[simp] theorem readInt_formatInt (n : Int64) : readInt (formatInt n) = some n := by
  have hlt : ∀ c ∈ intText n.toInt, c.toNat < 256 := fun c hc => by
    have := (mem_intText hc).2
    omega
  rw [readInt, formatInt, latin1_toBytes hlt, parseInt_intText]

theorem formatInt_injective : Function.Injective formatInt := by
  intro m n h
  have hread := readInt_formatInt m
  rw [h, readInt_formatInt] at hread
  exact (Option.some.inj hread).symm

/-- The bytes of an integer that is read: digits and signs. -/
theorem mem_of_readInt {n : Int64} (h : readInt s = some n) (hb : b ∈ s) :
    43 ≤ b ∧ b ≤ 57 ∧ b ≠ 44 := by
  have hchar := mem_of_parseInt h (mem_map_of_mem hb : Char.ofNat b.toNat ∈ latin1 s)
  have hlt := UInt8.toNat_lt b
  generalize hk : b.toNat = k at hchar hlt
  have hcases : 43 ≤ k ∧ k ≤ 57 ∧ k ≠ 44 := by
    interval_cases k <;> first | omega | exact absurd hchar (by decide)
  rw [UInt8.le_iff_toNat_le, UInt8.le_iff_toNat_le, hk, Ne, ← UInt8.toNat_inj, hk]
  exact hcases

theorem length_formatInt_le {n : Int64} (h : readInt s = some n) :
    (formatInt n).length ≤ s.length := by
  have hlen := length_intText_le h
  rwa [latin1, length_map, ← length_map (fun c => UInt8.ofNat c.toNat)] at hlen

/-! ## Length prefixes -/

/-- A string after its length in decimal and a colon. -/
def lengthPrefixed (s : Bytes) : Bytes := toBytes (natText s.length) ++ 58 :: s

/-- Strings one after another, each after its length. -/
def frames (parts : List Bytes) : Bytes := parts.flatMap lengthPrefixed

/-- The first occurrence of a separator splits a list. -/
theorem append_cons_inj {α : Type*} {x : α} {a b s t : List α} (ha : x ∉ a) (hb : x ∉ b)
    (h : a ++ x :: s = b ++ x :: t) : a = b ∧ s = t := by
  induction a generalizing b with
  | nil =>
    cases b with
    | nil => exact ⟨rfl, (List.cons.inj h).2⟩
    | cons y b => exact absurd ((List.cons.inj h).1 ▸ mem_cons_self) hb
  | cons y a ih =>
    cases b with
    | nil => exact absurd ((List.cons.inj h).1 ▸ mem_cons_self) ha
    | cons z b =>
      obtain ⟨rfl, htail⟩ := List.cons.inj h
      obtain ⟨rfl, rfl⟩ := ih (fun hx => ha (mem_cons_of_mem _ hx))
        (fun hx => hb (mem_cons_of_mem _ hx)) htail
      exact ⟨rfl, rfl⟩

theorem colon_notMem_length (n : ℕ) : (58 : UInt8) ∉ toBytes (natText n) := by
  intro h
  obtain ⟨c, hc, heq⟩ := mem_map.1 h
  have hlt := toNat_lt_of_mem_natText hc
  have hnat := congrArg UInt8.toNat heq
  rw [UInt8.toNat_ofNat', Nat.mod_eq_of_lt (by omega)] at hnat
  exact absurd hnat hlt.ne

theorem toBytes_natText_inj {m : ℕ} (h : toBytes (natText m) = toBytes (natText n)) : m = n := by
  have hlt : ∀ n, ∀ c ∈ natText n, c.toNat < 256 := fun n c hc =>
    (toNat_lt_of_mem_natText hc).trans (by norm_num)
  rw [← natText_injective.eq_iff, ← latin1_toBytes (hlt m), h, latin1_toBytes (hlt n)]

theorem lengthPrefixed_append_inj {p q t : Bytes}
    (h : lengthPrefixed p ++ s = lengthPrefixed q ++ t) : p = q ∧ s = t := by
  simp only [lengthPrefixed, append_assoc, cons_append] at h
  obtain ⟨hlen, hrest⟩ := append_cons_inj (colon_notMem_length _) (colon_notMem_length _) h
  exact append_inj hrest (toBytes_natText_inj hlen)

theorem lengthPrefixed_ne_nil (s : Bytes) : lengthPrefixed s ≠ [] := by
  simp [lengthPrefixed]

/-- **Strings after their lengths split one way only.** -/
theorem frames_injective : Function.Injective frames := by
  intro ps
  induction ps with
  | nil =>
    intro qs h
    cases qs with
    | nil => rfl
    | cons q qs => exact absurd (append_eq_nil_iff.1 h.symm).1 (lengthPrefixed_ne_nil q)
  | cons p ps ih =>
    intro qs h
    cases qs with
    | nil => exact absurd (append_eq_nil_iff.1 h).1 (lengthPrefixed_ne_nil p)
    | cons q qs =>
      obtain ⟨rfl, hrest⟩ := lengthPrefixed_append_inj h
      rw [ih hrest]

/-! ## Percent coding -/

/-- A hexadecimal digit, in upper case. -/
def hexDigit (n : ℕ) : UInt8 := if n < 10 then UInt8.ofNat (48 + n) else UInt8.ofNat (55 + n)

/-- The value of a hexadecimal digit, of either case. -/
def unhex (c : UInt8) : Option ℕ :=
  if 48 ≤ c ∧ c ≤ 57 then some (c.toNat - 48)
  else if 97 ≤ c ∧ c ≤ 102 then some (c.toNat - 87)
  else if 65 ≤ c ∧ c ≤ 70 then some (c.toNat - 55)
  else none

/-- The bytes that are not kept, each as `%` and two hexadecimal digits. -/
def percentEscape (keep : UInt8 → Bool) (s : Bytes) : Bytes :=
  s.flatMap fun c => if keep c then [c] else [37, hexDigit (c.toNat / 16), hexDigit (c.toNat % 16)]

/-- The string that was escaped; `none` for a `%` that two hexadecimal digits do not follow. -/
def percentUnescape : Bytes → Option Bytes
  | [] => some []
  | c :: rest =>
    if c = 37 then
      match rest with
      | hi :: lo :: rest => do
        let hi ← unhex hi
        let lo ← unhex lo
        let s ← percentUnescape rest
        return UInt8.ofNat (hi * 16 + lo) :: s
      | _ => none
    else (percentUnescape rest).map (c :: ·)

@[simp] theorem unhex_hexDigit (h : n < 16) : unhex (hexDigit n) = some n := by
  interval_cases n <;> decide

theorem percentUnescape_kept {c : UInt8} (h : c ≠ 37) (rest : Bytes) :
    percentUnescape (c :: rest) = (percentUnescape rest).map (c :: ·) := by
  conv_lhs => unfold percentUnescape
  exact if_neg h

theorem percentUnescape_escaped (c : UInt8) (rest : Bytes) :
    percentUnescape (37 :: hexDigit (c.toNat / 16) :: hexDigit (c.toNat % 16) :: rest) =
      (percentUnescape rest).map (c :: ·) := by
  have hc : c.toNat < 256 := c.toNat_lt
  have hbyte : c.toNat / 16 * 16 + c.toNat % 16 = c.toNat := by omega
  conv_lhs => unfold percentUnescape
  simp only [if_true, unhex_hexDigit (show c.toNat / 16 < 16 by omega),
    unhex_hexDigit (Nat.mod_lt _ (by norm_num : 16 > 0)), Option.bind_eq_bind, Option.bind_some,
    hbyte, UInt8.ofNat_toNat]
  cases percentUnescape rest <;> rfl

/-- **Unescaping gives back the string**, whatever is kept, if `%` is not. -/
theorem percentUnescape_percentEscape (hkeep : keep 37 = false) (s : Bytes) :
    percentUnescape (percentEscape keep s) = some s := by
  induction s with
  | nil => rfl
  | cons c s ih =>
    rw [percentEscape, flatMap_cons, ← percentEscape]
    split
    · rename_i hkept
      have hne : c ≠ 37 := by
        rintro rfl
        rw [hkeep] at hkept
        cases hkept
      rw [singleton_append, percentUnescape_kept hne, ih]
      rfl
    · simp only [cons_append, nil_append, percentUnescape_escaped, ih, Option.map_some]

/-- What is escaped holds only bytes that are kept, `%` and hexadecimal digits. -/
theorem mem_percentEscape (h : b ∈ percentEscape keep s) :
    keep b = true ∨ b = 37 ∨ ∃ n < 16, b = hexDigit n := by
  obtain ⟨c, -, hb⟩ := mem_flatMap.1 h
  have hc : c.toNat < 256 := c.toNat_lt
  split at hb
  · rename_i hkept
    rw [mem_singleton.1 hb]
    exact .inl hkept
  · simp only [mem_cons, not_mem_nil, or_false] at hb
    rcases hb with rfl | rfl | rfl
    · exact .inr (.inl rfl)
    · exact .inr (.inr ⟨_, by omega, rfl⟩)
    · exact .inr (.inr ⟨_, Nat.mod_lt _ (by norm_num), rfl⟩)

/-! ## Base64 -/

/-- The digit of six bits in the URL alphabet. -/
def base64Digit (n : ℕ) : UInt8 :=
  if n < 26 then UInt8.ofNat (65 + n) else if n < 52 then UInt8.ofNat (71 + n)
  else if n < 62 then UInt8.ofNat (n - 4) else if n = 62 then 45 else 95

def unbase64Digit (c : UInt8) : Option ℕ :=
  if 65 ≤ c ∧ c ≤ 90 then some (c.toNat - 65)
  else if 97 ≤ c ∧ c ≤ 122 then some (c.toNat - 71)
  else if 48 ≤ c ∧ c ≤ 57 then some (c.toNat + 4)
  else if c = 45 then some 62
  else if c = 95 then some 63
  else none

/-- `base64.RawURLEncoding.EncodeToString`: three bytes in four digits, without padding. -/
def base64 : Bytes → Bytes
  | [] => []
  | [a] => [base64Digit (a.toNat / 4), base64Digit (a.toNat % 4 * 16)]
  | [a, b] =>
    [base64Digit (a.toNat / 4), base64Digit (a.toNat % 4 * 16 + b.toNat / 16),
      base64Digit (b.toNat % 16 * 4)]
  | a :: b :: c :: rest =>
    base64Digit (a.toNat / 4) :: base64Digit (a.toNat % 4 * 16 + b.toNat / 16) ::
      base64Digit (b.toNat % 16 * 4 + c.toNat / 64) :: base64Digit (c.toNat % 64) :: base64 rest

/-- The bytes of the digits; the bits that the last digit has over are ignored. -/
def unbase64Digits : List ℕ → Option Bytes
  | [] => some []
  | [_] => none
  | [w, x] => some [UInt8.ofNat (w * 4 + x / 16)]
  | [w, x, y] => some [UInt8.ofNat (w * 4 + x / 16), UInt8.ofNat (x % 16 * 16 + y / 4)]
  | w :: x :: y :: z :: rest =>
    (unbase64Digits rest).map fun s =>
      UInt8.ofNat (w * 4 + x / 16) :: UInt8.ofNat (x % 16 * 16 + y / 4) ::
        UInt8.ofNat (y % 4 * 64 + z) :: s

/-- `base64.RawURLEncoding.DecodeString`: line breaks are skipped. -/
def unbase64 (s : Bytes) : Option Bytes :=
  ((s.filter fun c => c ≠ 10 ∧ c ≠ 13).mapM unbase64Digit).bind unbase64Digits

theorem unbase64Digit_base64Digit (h : n < 64) : unbase64Digit (base64Digit n) = some n := by
  interval_cases n <;> decide

theorem base64Digit_ne_break (h : n < 64) : base64Digit n ≠ 10 ∧ base64Digit n ≠ 13 := by
  interval_cases n <;> decide

/-- The digits of a string. -/
theorem base64_eq_map (s : Bytes) :
    ∃ digits : List ℕ, base64 s = digits.map base64Digit ∧ (∀ d ∈ digits, d < 64) ∧
      unbase64Digits digits = some s := by
  fun_induction base64 s with
  | case1 => exact ⟨[], rfl, by simp, rfl⟩
  | case2 a =>
    have ha : a.toNat < 256 := a.toNat_lt
    refine ⟨[a.toNat / 4, a.toNat % 4 * 16], rfl, ?_, ?_⟩
    · simp only [mem_cons, not_mem_nil, or_false]
      rintro d (rfl | rfl) <;> omega
    · have hbyte : a.toNat / 4 * 4 + a.toNat % 4 * 16 / 16 = a.toNat := by omega
      rw [unbase64Digits, hbyte, UInt8.ofNat_toNat]
  | case3 a b =>
    have ha : a.toNat < 256 := a.toNat_lt
    have hb : b.toNat < 256 := b.toNat_lt
    refine ⟨[a.toNat / 4, a.toNat % 4 * 16 + b.toNat / 16, b.toNat % 16 * 4], rfl, ?_, ?_⟩
    · simp only [mem_cons, not_mem_nil, or_false]
      rintro d (rfl | rfl | rfl) <;> omega
    · have hfirst : a.toNat / 4 * 4 + (a.toNat % 4 * 16 + b.toNat / 16) / 16 = a.toNat := by omega
      have hsecond : (a.toNat % 4 * 16 + b.toNat / 16) % 16 * 16 + b.toNat % 16 * 4 / 4 = b.toNat := by
        omega
      rw [unbase64Digits, hfirst, hsecond, UInt8.ofNat_toNat, UInt8.ofNat_toNat]
  | case4 a b c rest ih =>
    obtain ⟨digits, hmap, hlt, hread⟩ := ih
    have ha : a.toNat < 256 := a.toNat_lt
    have hb : b.toNat < 256 := b.toNat_lt
    have hc : c.toNat < 256 := c.toNat_lt
    refine ⟨a.toNat / 4 :: (a.toNat % 4 * 16 + b.toNat / 16) ::
      (b.toNat % 16 * 4 + c.toNat / 64) :: c.toNat % 64 :: digits, by simp [hmap], ?_, ?_⟩
    · simp only [mem_cons]
      rintro d (rfl | rfl | rfl | rfl | hd)
      · omega
      · omega
      · omega
      · omega
      · exact hlt d hd
    · have hfirst : a.toNat / 4 * 4 + (a.toNat % 4 * 16 + b.toNat / 16) / 16 = a.toNat := by omega
      have hsecond : (a.toNat % 4 * 16 + b.toNat / 16) % 16 * 16 +
          (b.toNat % 16 * 4 + c.toNat / 64) / 4 = b.toNat := by omega
      have hthird : (b.toNat % 16 * 4 + c.toNat / 64) % 4 * 64 + c.toNat % 64 = c.toNat := by omega
      rw [unbase64Digits, hread, hfirst, hsecond, hthird]
      simp

/-- **Decoding gives back the bytes.** -/
@[simp] theorem unbase64_base64 (s : Bytes) : unbase64 (base64 s) = some s := by
  obtain ⟨digits, hmap, hlt, hread⟩ := base64_eq_map s
  have hfilter : (base64 s).filter (fun c => c ≠ 10 ∧ c ≠ 13) = base64 s := by
    rw [filter_eq_self, hmap]
    intro c hc
    obtain ⟨d, hd, rfl⟩ := mem_map.1 hc
    exact decide_eq_true (base64Digit_ne_break (hlt d hd))
  have hdigits : ∀ l : List ℕ, (∀ d ∈ l, d < 64) →
      (l.map base64Digit).mapM unbase64Digit = some l := by
    intro l hl
    induction l with
    | nil => rfl
    | cons d l ih =>
      simp [mapM_cons, unbase64Digit_base64Digit (hl d mem_cons_self),
        ih fun d' hd' => hl d' (mem_cons_of_mem d hd')]
  rw [unbase64, hfilter, hmap, hdigits digits hlt, Option.bind_some, hread]

theorem base64_injective : Function.Injective base64 := by
  intro s t h
  have hread := unbase64_base64 s
  rw [h, unbase64_base64] at hread
  exact (Option.some.inj hread).symm

end Gombit
