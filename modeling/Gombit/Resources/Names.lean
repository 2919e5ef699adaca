import Gombit.Foundations.StructTag

/-!
# Names of fields

The column name (`toSnake`) and the Go name (`toPascal`) of a field, for any tables of Unicode that
treat ASCII as they should. A field whose Go name is an exported identifier has a column name without
quotes, backslashes and the like (`notMem_toSnake`).
-/

namespace Gombit.Resources

open List

/-! ## Characters -/

/-- An ASCII letter. -/
def isAsciiLetter (r : ℕ) : Bool := (65 ≤ r && r ≤ 90) || (97 ≤ r && r ≤ 122)

/-- The tables of package unicode. Outside ASCII, a letter can have an ASCII letter for its other case,
and nothing else of ASCII. -/
structure Unicode where
  isLetter : ℕ → Bool
  isDigit : ℕ → Bool
  isUpper : ℕ → Bool
  isLower : ℕ → Bool
  toUpper : ℕ → ℕ
  toLower : ℕ → ℕ
  isLetter_ascii : ∀ r < 128, isLetter r = isAsciiLetter r
  isDigit_ascii : ∀ r < 128, isDigit r = (48 ≤ r && r ≤ 57)
  isUpper_ascii : ∀ r < 128, isUpper r = (65 ≤ r && r ≤ 90)
  isLower_ascii : ∀ r < 128, isLower r = (97 ≤ r && r ≤ 122)
  toUpper_ascii : ∀ r < 128, toUpper r = if 97 ≤ r ∧ r ≤ 122 then r - 32 else r
  toLower_ascii : ∀ r < 128, toLower r = if 65 ≤ r ∧ r ≤ 90 then r + 32 else r
  toUpper_other : ∀ r, 128 ≤ r → 128 ≤ toUpper r ∨ isAsciiLetter (toUpper r) = true
  toLower_other : ∀ r, 128 ≤ r → 128 ≤ toLower r ∨ isAsciiLetter (toLower r) = true

/-- The tables of ASCII alone. -/
def basicLatin : Unicode where
  isLetter r := isAsciiLetter r
  isDigit r := 48 ≤ r && r ≤ 57
  isUpper r := 65 ≤ r && r ≤ 90
  isLower r := 97 ≤ r && r ≤ 122
  toUpper r := if 97 ≤ r ∧ r ≤ 122 then r - 32 else r
  toLower r := if 65 ≤ r ∧ r ≤ 90 then r + 32 else r
  isLetter_ascii _ _ := rfl
  isDigit_ascii _ _ := rfl
  isUpper_ascii _ _ := rfl
  isLower_ascii _ _ := rfl
  toUpper_ascii _ _ := rfl
  toLower_ascii _ _ := rfl
  toUpper_other r hr := .inl (by rwa [if_neg (by omega)])
  toLower_other r hr := .inl (by rwa [if_neg (by omega)])

/-- The characters of a string; a byte that is part of none is U+FFFD. -/
def codes (s : Bytes) : List ℕ := (runes s).map fun o => o.getD 0xfffd

/-- `utf8.AppendRune`. -/
def writeRune (r : ℕ) : Bytes := if r.isValidChar then encodeRune r else replacement

def writeRunes (rs : List ℕ) : Bytes := rs.flatMap writeRune

/-- `utf8.DecodeRuneInString`, and what follows the character. -/
def decodeRune : Bytes → ℕ × Bytes
  | [] => (0xfffd, [])
  | a :: s => (((codes (a :: s)).head?).getD 0xfffd, if a < 0x80 then s else s.drop (tailLen a s))

/-! ## Names -/

section Names

variable (u : Unicode)

/-- `strings.ToLower`. -/
def lower (s : Bytes) : Bytes := writeRunes ((codes s).map u.toLower)

/-- The name with underscores for its dashes. -/
def undashed (s : Bytes) : Bytes := (trimSpace s).map fun b => if b = 45 then 95 else b

/-- What is written for one character: an underscore goes before an upper case letter that follows
another kind of character, or comes before a lower case letter. -/
def snakeRune (prev next : Option ℕ) (r : ℕ) : List ℕ :=
  if u.isUpper r then
    if prev.any fun p => !u.isUpper p || next.any u.isLower then [95, u.toLower r] else [u.toLower r]
  else [r]

def snakeRunes : Option ℕ → List ℕ → List ℕ
  | _, [] => []
  | prev, r :: rest => snakeRune u prev rest.head? r ++ snakeRunes (some r) rest

/-- `toSnake`. -/
def toSnake (s : Bytes) : Bytes :=
  let s := undashed s
  if 95 ∈ s then lower u s else writeRunes (snakeRunes u none (codes s))

/-- A part of a name in Pascal case. -/
def pascalPart (part : Bytes) : Bytes :=
  if part = [] then []
  else if lower u part = ascii "id" then ascii "ID"
  else if lower u part = ascii "url" then ascii "URL"
  else writeRune (u.toUpper (decodeRune part).1) ++ lower u (decodeRune part).2

/-- `toPascal`. -/
def toPascal (s : Bytes) : Bytes :=
  let s := undashed s
  if s = [] then []
  else if 95 ∈ s then (s.splitOn 95).flatMap (pascalPart u)
  else writeRune (u.toUpper (decodeRune s).1) ++ (decodeRune s).2

/-- `isGoIdent`. -/
def isGoIdent (name : Bytes) : Bool :=
  match codes name with
  | [] => false
  | r :: rest =>
    (u.isLetter r || r = 95) && rest.all fun r => u.isLetter r || u.isDigit r || r = 95

/-- `isExportedIdent`. -/
def isExportedIdent (name : Bytes) : Bool := isGoIdent u name && u.isUpper (decodeRune name).1

end Names

/-! ## Bytes outside names -/

/-- ASCII that no name has. -/
def isForeign (x : UInt8) : Bool :=
  x < 0x80 && !isAsciiLetter x.toNat && !(48 ≤ x && x ≤ 57) && x ≠ 95 && x ≠ 45

variable {x : UInt8} {s : Bytes}

theorem mem_codes (hx : x < 0x80) : x.toNat ∈ codes s ↔ x ∈ s := by
  have hlt : x.toNat < 128 := UInt8.lt_iff_toNat_lt.1 hx
  induction hlen : s.length using Nat.strong_induction_on generalizing s with
  | _ n ih =>
    cases s with
    | nil => simp [codes, runes]
    | cons a s =>
      by_cases ha : a < 0x80
      · have hs : x.toNat ∈ codes s ↔ x ∈ s := ih s.length (by simp [← hlen]) rfl
        rw [codes, runes_cons_ascii ha, map_cons, mem_cons, mem_cons, ← codes, hs]
        simp [UInt8.toNat_inj]
      · -- a character that is not ASCII has neither the byte nor the code
        obtain ⟨o, hrunes, -, hge⟩ := runes_cons ha s
        have hs : x.toNat ∈ codes (s.drop (tailLen a s)) ↔ x ∈ s.drop (tailLen a s) :=
          ih (s.drop (tailLen a s)).length (by simp [← hlen]) rfl
        have ho : x.toNat ≠ o.getD 0xfffd := by
          cases o with
          | none => simp; omega
          | some r => simpa using fun h => absurd (hge r rfl) (by omega)
        have hxa : x ≠ a := fun h => ha (h ▸ hx)
        have htake : x ∉ s.take (tailLen a s) := by
          intro hmem
          rcases eq_or_ne (tailLen a s) 0 with hzero | hne
          · rw [hzero] at hmem
            cases hmem
          · exact not_lt_of_continuation ((tailLen_spec hne).2.2 x hmem) hx
        rw [codes, hrunes, map_cons, mem_cons, ← codes, hs, mem_cons]
        simp only [ho, hxa, false_or]
        refine ⟨mem_of_mem_drop, fun hmem => ?_⟩
        rw [← take_append_drop (tailLen a s) s] at hmem
        exact (mem_append.1 hmem).resolve_left htake

variable {r : ℕ}

theorem eq_of_mem_encodeRune (hx : x < 0x80) (hr : r.isValidChar) (h : x ∈ encodeRune r) :
    r = x.toNat := by
  have hlt : x.toNat < 128 := UInt8.lt_iff_toNat_lt.1 hx
  have hval := val_ofNat hr
  unfold encodeRune String.utf8EncodeChar at h
  dsimp only at h
  rw [hval] at h
  -- only the characters up to 127 have a byte below 128
  repeat' split at h
  all_goals
    simp only [mem_cons, not_mem_nil, or_false, ← UInt8.toNat_inj,
      UInt8.toNat_ofNat'] at h
    omega

theorem mem_writeRune (hx : x < 0x80) : x ∈ writeRune r ↔ r = x.toNat := by
  have hlt : x.toNat < 128 := UInt8.lt_iff_toNat_lt.1 hx
  constructor
  · intro hmem
    rw [writeRune] at hmem
    split at hmem
    · exact eq_of_mem_encodeRune hx ‹_› hmem
    · exact absurd hx (by
        simp only [replacement, mem_cons, not_mem_nil, or_false] at hmem
        rcases hmem with rfl | rfl | rfl <;> decide)
  · rintro rfl
    have hvalid : x.toNat.isValidChar := .inl (by omega)
    rw [writeRune, if_pos hvalid, encodeRune_ascii _ hlt, UInt8.ofNat_toNat]
    exact mem_singleton_self x

theorem mem_writeRunes (hx : x < 0x80) {rs : List ℕ} : x ∈ writeRunes rs ↔ x.toNat ∈ rs := by
  rw [writeRunes, mem_flatMap]
  simp [mem_writeRune hx]

theorem isForeign_lt (h : isForeign x = true) : x < 0x80 := by
  simp only [isForeign, Bool.and_eq_true, decide_eq_true_eq] at h
  exact h.1.1.1.1

/-- A foreign character is no letter, no digit and no separator. -/
theorem isForeign_spec (h : isForeign x = true) :
    isAsciiLetter x.toNat = false ∧ ¬ (48 ≤ x.toNat ∧ x.toNat ≤ 57) ∧ x ≠ 95 ∧ x ≠ 45 := by
  simp only [isForeign, Bool.and_eq_true, decide_eq_true_eq, Bool.not_eq_true', Bool.and_eq_false_iff,
    decide_eq_false_iff_not, UInt8.le_iff_toNat_le, UInt8.reduceToNat] at h
  obtain ⟨⟨⟨⟨-, hletter⟩, hdigit⟩, h95⟩, h45⟩ := h
  exact ⟨hletter, by omega, h95, h45⟩

section Names

variable {u : Unicode} {x : UInt8} (hx : isForeign x = true)

include hx

theorem toNat_of_isForeign : x.toNat < 65 ∨ 90 < x.toNat ∧ x.toNat < 97 ∨
    122 < x.toNat ∧ x.toNat < 128 := by
  have hlt : x.toNat < 128 := UInt8.lt_iff_toNat_lt.1 (isForeign_lt hx)
  obtain ⟨hletter, -⟩ := isForeign_spec hx
  simp only [isAsciiLetter, Bool.or_eq_false_iff, Bool.and_eq_false_iff, decide_eq_false_iff_not]
    at hletter
  omega

/-- Only the character itself has a foreign one for its lower case. -/
theorem toLower_eq_iff : u.toLower r = x.toNat ↔ r = x.toNat := by
  have hnat := toNat_of_isForeign hx
  rcases lt_or_ge r 128 with hr | hr
  · rw [u.toLower_ascii r hr]
    split <;> omega
  · have hother := u.toLower_other r hr
    simp only [isAsciiLetter, Bool.or_eq_true, Bool.and_eq_true, decide_eq_true_eq] at hother
    omega

theorem toUpper_eq : u.toUpper x.toNat = x.toNat := by
  have hnat := toNat_of_isForeign hx
  rw [u.toUpper_ascii _ (by omega), if_neg (by omega)]

theorem mem_lower : x ∈ lower u s ↔ x ∈ s := by
  rw [lower, mem_writeRunes (isForeign_lt hx), mem_map, ← mem_codes (isForeign_lt hx)]
  simp [toLower_eq_iff hx]

theorem mem_snakeRunes {prev : Option ℕ} {rs : List ℕ} (h : x.toNat ∈ snakeRunes u prev rs) :
    x.toNat ∈ rs := by
  have h95 : x.toNat ≠ 95 := fun h => (isForeign_spec hx).2.2.1 (UInt8.toNat_inj.1 h)
  induction rs generalizing prev with
  | nil => exact h
  | cons r rs ih =>
    rw [snakeRunes, mem_append] at h
    rcases h with h | h
    · have hr : x.toNat = r ∨ x.toNat = u.toLower r := by
        rw [snakeRune] at h
        split at h
        · right
          split at h
          · exact mem_singleton.1 ((mem_cons.1 h).resolve_left h95)
          · exact mem_singleton.1 h
        · exact .inl (mem_singleton.1 h)
      rcases hr with hr | hr
      · exact hr ▸ mem_cons_self
      · exact ((toLower_eq_iff hx).1 hr.symm) ▸ mem_cons_self
    · exact mem_cons_of_mem r (ih h)

theorem mem_undashed_of_mem_toSnake (h : x ∈ toSnake u s) : x ∈ undashed s := by
  rw [toSnake] at h
  split at h
  · exact (mem_lower hx).1 h
  · rw [mem_writeRunes (isForeign_lt hx)] at h
    exact (mem_codes (isForeign_lt hx)).1 (mem_snakeRunes hx h)

/-- A foreign character is the first of a string, or after it. -/
theorem mem_decodeRune (h : x ∈ s) :
    x ∈ writeRune (u.toUpper (decodeRune s).1) ∨ x ∈ (decodeRune s).2 := by
  have hlt := isForeign_lt hx
  cases s with
  | nil => cases h
  | cons a s =>
    by_cases ha : a < 0x80
    · rcases mem_cons.1 h with rfl | h
      · left
        rw [mem_writeRune hlt, decodeRune, codes, runes_cons_ascii ha]
        exact toUpper_eq hx
      · right
        rw [decodeRune, if_pos ha]
        exact h
    · right
      rw [decodeRune, if_neg ha]
      have hs : x ∈ s := (mem_cons.1 h).resolve_left fun h => ha (h ▸ hlt)
      rcases eq_or_ne (tailLen a s) 0 with hzero | hne
      · rwa [hzero]
      · rw [← take_append_drop (tailLen a s) s] at hs
        refine (mem_append.1 hs).resolve_left fun htake => ?_
        exact not_lt_of_continuation ((tailLen_spec hne).2.2 x htake) hlt

theorem mem_toPascal (h : x ∈ undashed s) : x ∈ toPascal u s := by
  rw [toPascal]
  split
  · rename_i hnil
    rw [hnil] at h
    cases h
  split
  · -- a part with the character is written letter by letter
    have hjoin : [95].intercalate ((undashed s).splitOn 95) = undashed s := intercalate_splitOn 95
    rw [← hjoin] at h
    by_contra hnot
    refine notMem_intercalate (isForeign_spec hx).2.2.1 (fun part hpart hmem => hnot ?_) h
    refine mem_flatMap.2 ⟨part, hpart, ?_⟩
    have hword : ∀ {w : Bytes}, x ∉ w → lower u part ≠ w := by
      rintro w hw rfl
      exact hw ((mem_lower hx).2 hmem)
    have hletters : ∀ {w : Bytes}, (w.all fun b => isAsciiLetter b.toNat) = true → x ∉ w := by
      intro w hw hxw
      exact absurd (all_eq_true.1 hw x hxw) (by rw [(isForeign_spec hx).1]; decide)
    rw [pascalPart, if_neg (ne_nil_of_mem hmem), if_neg (hword (hletters (by decide))),
      if_neg (hword (hletters (by decide))), mem_append, mem_lower hx]
    exact mem_decodeRune hx hmem
  · rw [mem_append]
    exact mem_decodeRune hx h

/-- An identifier has no foreign character. -/
theorem notMem_of_isGoIdent {name : Bytes} (h : isGoIdent u name = true) : x ∉ name := by
  intro hmem
  have hlt : x.toNat < 128 := UInt8.lt_iff_toNat_lt.1 (isForeign_lt hx)
  obtain ⟨hletter, hdigit, h95, -⟩ := isForeign_spec hx
  have hletter' : u.isLetter x.toNat = false := by rw [u.isLetter_ascii _ hlt, hletter]
  have hdigit' : u.isDigit x.toNat = false := by
    rw [u.isDigit_ascii _ hlt]
    simpa using hdigit
  have h95' : x.toNat ≠ 95 := fun h => h95 (UInt8.toNat_inj.1 h)
  rw [← mem_codes (isForeign_lt hx)] at hmem
  rw [isGoIdent] at h
  split at h
  · cases h
  · rename_i r rest hcodes
    rw [hcodes] at hmem
    simp only [Bool.and_eq_true, Bool.or_eq_true, decide_eq_true_eq, all_eq_true] at h
    rcases mem_cons.1 hmem with rfl | hmem
    · simp [hletter', h95'] at h
    · have := h.2 _ hmem
      simp [hletter', hdigit', h95'] at this

/-- **The column name of a field has no character outside names**, if its Go name is an identifier. -/
theorem notMem_toSnake {name : Bytes} (h : isExportedIdent u (toPascal u name) = true) :
    x ∉ toSnake u name := fun hmem =>
  notMem_of_isGoIdent hx (Bool.and_eq_true_iff.1 h).1
    (mem_toPascal hx (mem_undashed_of_mem_toSnake hx hmem))

end Names

end Gombit.Resources
