import Gombit.Foundations.Bytes
import Mathlib.Data.List.Lex

/-!
# Maps of strings, as JSON

A map from strings to strings (`StringMap`), the JSON object that holds one (`marshal`) and its
reading (`unmarshal`). Reading gives back the map written: `unmarshal_marshal`.

Text is UTF-8: the coding never looks inside a character of several bytes.
-/

namespace Gombit

open List

/-! ## Maps -/

/-- The order of strings by their bytes. -/
def rank (s : Bytes) : List ℕ := s.map UInt8.toNat

theorem rank_injective : Function.Injective rank :=
  map_injective_iff.2 fun _ _ => UInt8.toNat_inj.1

/-- A map of strings: its entries, in the order of their names. -/
structure StringMap where
  entries : List (Bytes × Bytes)
  sorted : entries.Pairwise fun a b => rank a.1 < rank b.1
deriving DecidableEq

variable (m : StringMap)

namespace StringMap

@[ext] theorem ext {m m' : StringMap} (h : m.entries = m'.entries) : m = m' := by
  cases m
  cases m'
  cases h
  rfl

def empty : StringMap := ⟨[], List.Pairwise.nil⟩

/-- The entries, with one of them set. -/
def insertEntry (name value : Bytes) : List (Bytes × Bytes) → List (Bytes × Bytes)
  | [] => [(name, value)]
  | e :: rest =>
    if rank e.1 < rank name then e :: insertEntry name value rest
    else if rank name < rank e.1 then (name, value) :: e :: rest
    else (name, value) :: rest

variable {name : Bytes} {l : List (Bytes × Bytes)}

variable {value other : Bytes}

theorem mem_insertEntry {e : Bytes × Bytes} (h : e ∈ insertEntry name value l) :
    e = (name, value) ∨ e ∈ l := by
  induction l with
  | nil => exact .inl (mem_singleton.1 h)
  | cons a l ih =>
    rw [insertEntry] at h
    split at h
    · rcases mem_cons.1 h with rfl | h
      · exact .inr mem_cons_self
      · exact (ih h).imp_right (mem_cons_of_mem a)
    · split at h
      · exact mem_cons.1 h
      · exact (mem_cons.1 h).imp_right (mem_cons_of_mem a)

theorem sorted_insertEntry (name value : Bytes) (h : l.Pairwise fun a b => rank a.1 < rank b.1) :
    (insertEntry name value l).Pairwise fun a b => rank a.1 < rank b.1 := by
  induction l with
  | nil => exact pairwise_singleton _ _
  | cons a l ih =>
    obtain ⟨hhead, htail⟩ := pairwise_cons.1 h
    rw [insertEntry]
    split
    · rename_i hlt
      refine pairwise_cons.2 ⟨fun e he => ?_, ih htail⟩
      rcases mem_insertEntry he with rfl | he
      · exact hlt
      · exact hhead e he
    · rename_i hge
      split
      · rename_i hlt
        refine pairwise_cons.2 ⟨fun e he => ?_, h⟩
        rcases mem_cons.1 he with rfl | he
        · exact hlt
        · exact hlt.trans (hhead e he)
      · rename_i hle
        have heq : rank name = rank a.1 := le_antisymm (not_lt.1 hge) (not_lt.1 hle)
        exact pairwise_cons.2 ⟨fun e he => heq ▸ hhead e he, htail⟩

def insert (m : StringMap) (name value : Bytes) : StringMap :=
  ⟨insertEntry name value m.entries, sorted_insertEntry name value m.sorted⟩

/-- The value of a name. -/
def get (m : StringMap) (name : Bytes) : Option Bytes := m.entries.lookup name

/-- The map without a name. -/
def erase (m : StringMap) (name : Bytes) : StringMap :=
  ⟨m.entries.filter fun e => e.1 ≠ name, m.sorted.sublist List.filter_sublist⟩

theorem mem_insertEntry_self (name value : Bytes) (l : List (Bytes × Bytes)) :
    (name, value) ∈ insertEntry name value l := by
  induction l with
  | nil => exact mem_singleton_self _
  | cons e l ih =>
    rw [insertEntry]
    split
    · exact mem_cons_of_mem e ih
    · split <;> exact mem_cons_self

theorem eq_of_not_rank_lt {name' : Bytes} (h : ¬ rank name < rank name')
    (h' : ¬ rank name' < rank name) : name = name' :=
  rank_injective (le_antisymm (not_lt.1 h') (not_lt.1 h))

theorem get_insert_self (name value : Bytes) : (m.insert name value).get name = some value := by
  change (insertEntry name value m.entries).lookup name = some value
  induction m.entries with
  | nil => rw [insertEntry, lookup_cons_self]
  | cons e l ih =>
    rw [insertEntry]
    split
    · rename_i hlt
      have hne : name ≠ e.1 := fun heq => absurd hlt (heq ▸ lt_irrefl _)
      rw [lookup_cons, beq_false_of_ne hne]
      exact ih
    · split <;> exact lookup_cons_self

theorem get_insert_of_ne (hne : other ≠ name) (value : Bytes) :
    (m.insert name value).get other = m.get other := by
  change (insertEntry name value m.entries).lookup other = m.entries.lookup other
  induction m.entries with
  | nil => rw [insertEntry, lookup_cons, beq_false_of_ne hne]
  | cons e l ih =>
    rw [insertEntry]
    split
    · rw [lookup_cons, lookup_cons, ih]
    · rename_i hge
      split
      · rw [lookup_cons, beq_false_of_ne hne]
      · rename_i hle
        obtain rfl := eq_of_not_rank_lt hge hle
        rw [lookup_cons, lookup_cons, beq_false_of_ne hne]

theorem get_erase_self (name : Bytes) : (m.erase name).get name = none := by
  rw [get, lookup_eq_none_iff]
  intro e he
  have hne : e.1 ≠ name := of_decide_eq_true (mem_filter.1 he).2
  exact bne_iff_ne.2 hne.symm

theorem get_erase_of_ne (hne : other ≠ name) :
    (m.erase name).get other = m.get other := by
  change (m.entries.filter fun e => e.1 ≠ name).lookup other = m.entries.lookup other
  induction m.entries with
  | nil => rfl
  | cons e l ih =>
    rw [filter_cons, lookup_cons]
    split
    · rw [lookup_cons, ih]
    · rename_i heq
      have heq : e.1 = name := by simpa using heq
      rw [ih, heq, beq_false_of_ne hne]

/-- What is set again is set once. -/
theorem insert_insert (name value value' : Bytes) :
    (m.insert name value).insert name value' = m.insert name value' := by
  refine ext ?_
  change insertEntry name value' (insertEntry name value m.entries) = insertEntry name value' m.entries
  induction m.entries with
  | nil => simp [insertEntry]
  | cons e l ih =>
    by_cases hlt : rank e.1 < rank name
    · simp only [insertEntry, if_pos hlt, ih]
    · by_cases hgt : rank name < rank e.1
      · simp [insertEntry, hlt, hgt]
      · simp [insertEntry, hlt, hgt]

theorem erase_insert (name value : Bytes) : (m.insert name value).erase name = m.erase name := by
  refine ext ?_
  change (insertEntry name value m.entries).filter (fun e => e.1 ≠ name) =
    m.entries.filter fun e => e.1 ≠ name
  induction m.entries with
  | nil => simp [insertEntry]
  | cons e l ih =>
    rw [insertEntry]
    split
    · rw [filter_cons, filter_cons, ih]
    · rename_i hge
      split
      · rw [filter_cons_of_neg (by simp)]
      · rename_i hle
        obtain heq := eq_of_not_rank_lt hge hle
        rw [filter_cons_of_neg (by simp), filter_cons_of_neg (by simp [heq])]

/-- An entry after all others. -/
theorem insertEntry_last (h : ∀ e ∈ l, rank e.1 < rank name) :
    insertEntry name value l = l ++ [(name, value)] := by
  induction l with
  | nil => rfl
  | cons a l ih =>
    rw [insertEntry, if_pos (h a mem_cons_self),
      ih fun e he => h e (mem_cons_of_mem a he), cons_append]

end StringMap

/-! ## Strings -/

/-- A hexadecimal digit, in lower case. -/
def hexDigitLower (n : ℕ) : UInt8 := if n < 10 then UInt8.ofNat (48 + n) else UInt8.ofNat (87 + n)

/-- A byte of a string. Quotes, backslashes and control characters are escaped, and so are `<`, `>`
and `&`, which mean something in HTML. -/
def quoteByte (b : UInt8) : Bytes :=
  if b = 34 ∨ b = 92 then [92, b]
  else if b = 8 then [92, 98]
  else if b = 12 then [92, 102]
  else if b = 10 then [92, 110]
  else if b = 13 then [92, 114]
  else if b = 9 then [92, 116]
  else if b < 32 ∨ b = 60 ∨ b = 62 ∨ b = 38 then
    [92, 117, 48, 48, hexDigitLower (b.toNat / 16), hexDigitLower (b.toNat % 16)]
  else [b]

/-- A string in quotes. -/
def quote (s : Bytes) : Bytes := 34 :: s.flatMap quoteByte ++ [34]

/-- The character that a backslash and a letter stand for. -/
def simpleEscape (c : UInt8) : Option UInt8 :=
  if c = 34 ∨ c = 92 ∨ c = 47 then some c
  else if c = 98 then some 8
  else if c = 102 then some 12
  else if c = 110 then some 10
  else if c = 114 then some 13
  else if c = 116 then some 9
  else none

/-- Four hexadecimal digits. -/
def unhex4 (a b c d : UInt8) : Option ℕ := do
  let a ← unhex a
  let b ← unhex b
  let c ← unhex c
  let d ← unhex d
  return a * 4096 + b * 256 + c * 16 + d

def isSurrogate (r : ℕ) : Bool := 0xd800 ≤ r && r < 0xe000

/-- The character of a pair of surrogates. -/
def surrogatePair (r r' : ℕ) : Option ℕ :=
  if 0xd800 ≤ r ∧ r < 0xdc00 ∧ 0xdc00 ≤ r' ∧ r' < 0xe000 then
    some ((r - 0xd800) * 1024 + (r' - 0xdc00) + 0x10000)
  else none

/-- The bytes of a character. -/
def encodeRune (r : ℕ) : Bytes := String.utf8EncodeChar (Char.ofNat r)

/-- A string after its opening quote, and what follows its closing one. A surrogate without its
partner is replaced. -/
def unquote : Bytes → Option (Bytes × Bytes)
  | [] => none
  | c :: rest =>
    if c = 34 then some ([], rest)
    else if c = 92 then
      match rest with
      | [] => none
      | e :: rest =>
        if e = 117 then
          match rest with
          | a :: b :: c :: d :: rest =>
            match unhex4 a b c d with
            | none => none
            | some r =>
              if isSurrogate r then
                match rest with
                | s :: u :: a :: b :: c :: d :: rest' =>
                  if s = 92 ∧ u = 117 then
                    match (unhex4 a b c d).bind (surrogatePair r) with
                    | some r => (unquote rest').map fun p => (encodeRune r ++ p.1, p.2)
                    | none =>
                      (unquote (s :: u :: a :: b :: c :: d :: rest')).map fun p =>
                        (encodeRune 0xfffd ++ p.1, p.2)
                  else (unquote (s :: u :: a :: b :: c :: d :: rest')).map fun p =>
                    (encodeRune 0xfffd ++ p.1, p.2)
                | rest => (unquote rest).map fun p => (encodeRune 0xfffd ++ p.1, p.2)
              else (unquote rest).map fun p => (encodeRune r ++ p.1, p.2)
          | _ => none
        else
          match simpleEscape e with
          | some b => (unquote rest).map fun p => (b :: p.1, p.2)
          | none => none
    else if c < 32 then none
    else (unquote rest).map fun p => (c :: p.1, p.2)

theorem unhex_hexDigitLower {n : ℕ} (h : n < 16) : unhex (hexDigitLower n) = some n := by
  interval_cases n <;> decide

theorem encodeRune_ascii : ∀ n < 128, encodeRune n = [UInt8.ofNat n] := by
  decide

theorem unquote_plain {c : UInt8} (hquote : c ≠ 34) (hslash : c ≠ 92) (hctl : ¬ c < 32)
    (rest : Bytes) : unquote (c :: rest) = (unquote rest).map fun p => (c :: p.1, p.2) := by
  conv_lhs => unfold unquote
  rw [if_neg hquote, if_neg hslash, if_neg hctl]

variable {b : UInt8}

theorem unquote_simple {e : UInt8} (he : e ≠ 117) (hb : simpleEscape e = some b) (rest : Bytes) :
    unquote (92 :: e :: rest) = (unquote rest).map fun p => (b :: p.1, p.2) := by
  conv_lhs => unfold unquote
  simp [he, hb]

theorem unquote_unicode (hb : b.toNat < 128) (rest : Bytes) :
    unquote ([92, 117, 48, 48, hexDigitLower (b.toNat / 16), hexDigitLower (b.toNat % 16)] ++ rest) =
      (unquote rest).map fun p => (b :: p.1, p.2) := by
  have hcode : unhex4 48 48 (hexDigitLower (b.toNat / 16)) (hexDigitLower (b.toNat % 16)) =
      some b.toNat := by
    have hzero : unhex 48 = some 0 := by decide
    have hvalue : 0 * 4096 + 0 * 256 + b.toNat / 16 * 16 + b.toNat % 16 = b.toNat := by omega
    simp only [unhex4, hzero, unhex_hexDigitLower (show b.toNat / 16 < 16 by omega),
      unhex_hexDigitLower (Nat.mod_lt _ (by norm_num : 16 > 0)), Option.bind_eq_bind,
      Option.bind_some, hvalue]
    rfl
  have hsurrogate : isSurrogate b.toNat = false := by
    simp only [isSurrogate, Bool.and_eq_false_iff, decide_eq_false_iff_not]
    omega
  simp only [cons_append, nil_append]
  conv_lhs => unfold unquote
  simp [hcode, hsurrogate, encodeRune_ascii _ hb]

/-- A byte is read back, whichever way it is written. -/
theorem unquote_quoteByte (b : UInt8) (rest : Bytes) :
    unquote (quoteByte b ++ rest) = (unquote rest).map fun p => (b :: p.1, p.2) := by
  unfold quoteByte
  split_ifs with hquote hb hf hn hr ht hescape
  · rcases hquote with rfl | rfl
    · exact unquote_simple (by decide) (by decide) rest
    · exact unquote_simple (by decide) (by decide) rest
  · subst hb
    exact unquote_simple (by decide) (by decide) rest
  · subst hf
    exact unquote_simple (by decide) (by decide) rest
  · subst hn
    exact unquote_simple (by decide) (by decide) rest
  · subst hr
    exact unquote_simple (by decide) (by decide) rest
  · subst ht
    exact unquote_simple (by decide) (by decide) rest
  · refine unquote_unicode ?_ rest
    rcases hescape with h | rfl | rfl | rfl
    · have := UInt8.lt_iff_toNat_lt.1 h
      exact this.trans (by decide)
    · decide
    · decide
    · decide
  · rw [not_or] at hquote hescape
    exact unquote_plain hquote.1 hquote.2 hescape.1 rest

theorem unquote_flatMap_quoteByte (s rest : Bytes) :
    unquote (s.flatMap quoteByte ++ 34 :: rest) = some (s, rest) := by
  induction s with
  | nil =>
    show unquote (34 :: rest) = _
    unfold unquote
    exact if_pos rfl
  | cons b s ih =>
    rw [flatMap_cons, append_assoc, unquote_quoteByte, ih]
    rfl

/-! ## Objects -/

/-- An entry of an object. -/
def marshalEntry (e : Bytes × Bytes) : Bytes := quote e.1 ++ 58 :: quote e.2

def marshalEntries : List (Bytes × Bytes) → Bytes
  | [] => []
  | [e] => marshalEntry e
  | e :: es => marshalEntry e ++ 44 :: marshalEntries es

/-- `json.Marshal` of a map of strings. -/
def marshal (m : StringMap) : Bytes := 123 :: marshalEntries m.entries ++ [125]

def isSpace (b : UInt8) : Bool := b = 32 || b = 9 || b = 10 || b = 13

/-- The text after white space. -/
def skipSpace (s : Bytes) : Bytes := s.dropWhile isSpace

/-- A string in quotes, and what follows it. -/
def readString (s : Bytes) : Option (Bytes × Bytes) :=
  match s with
  | [] => none
  | c :: rest => if c = 34 then unquote rest else none

/-- The value of an entry: a string, or `null`, which leaves the empty string. -/
def readValue (s : Bytes) : Option (Bytes × Bytes) :=
  if ascii "null" <+: s then some ([], s.drop 4) else readString s

/-- The text after a byte, white space apart. -/
def expect (b : UInt8) (s : Bytes) : Option Bytes :=
  match skipSpace s with
  | [] => none
  | c :: rest => if c = b then some rest else none

/-- After an entry: more of them after a comma, or the closing brace. -/
def afterEntry (more : Bytes → Option (StringMap × Bytes)) (m : StringMap) (s : Bytes) :
    Option (StringMap × Bytes) :=
  match expect 44 s with
  | some s => more s
  | none => (expect 125 s).map fun s => (m, s)

/-- The entries of an object up to its closing brace, and what follows it; a name given twice has
its last value. `fuel` bounds the number of entries. -/
def readEntries : ℕ → Bytes → StringMap → Option (StringMap × Bytes)
  | 0, _, _ => none
  | fuel + 1, s, m =>
    (readString (skipSpace s)).bind fun name =>
    (expect 58 name.2).bind fun s =>
    (readValue (skipSpace s)).bind fun value =>
    afterEntry (fun s => readEntries fuel s (m.insert name.1 value.1)) (m.insert name.1 value.1) value.2

/-- An object, or `null`, and what follows it. -/
def readObject (s : Bytes) : Option (StringMap × Bytes) :=
  if ascii "null" <+: skipSpace s then some (StringMap.empty, (skipSpace s).drop 4)
  else
    (expect 123 s).bind fun s =>
    match expect 125 s with
    | some s => some (StringMap.empty, s)
    | none => readEntries s.length s StringMap.empty

/-- `json.Unmarshal` into a map of strings: one object and nothing after it. -/
def unmarshal (s : Bytes) : Option StringMap :=
  (readObject s).bind fun read => if skipSpace read.2 = [] then some read.1 else none

theorem readString_quote (s rest : Bytes) : readString (quote s ++ rest) = some (s, rest) := by
  have hopen : readString (quote s ++ rest) = unquote (s.flatMap quoteByte ++ [34] ++ rest) := by
    simp [readString, quote]
  rw [hopen, append_assoc]
  exact unquote_flatMap_quoteByte s rest

theorem skipSpace_cons (h : isSpace b = false) (s : Bytes) : skipSpace (b :: s) = b :: s := by
  simp [skipSpace, h]

@[simp] theorem skipSpace_quote (s rest : Bytes) : skipSpace (quote s ++ rest) = quote s ++ rest :=
  skipSpace_cons (by decide) _

theorem expect_cons (h : isSpace b = false) (s : Bytes) : expect b (b :: s) = some s := by
  rw [expect, skipSpace_cons h]
  exact if_pos rfl

theorem expect_other {c : UInt8} (h : isSpace c = false) (hne : c ≠ b) (s : Bytes) :
    expect b (c :: s) = none := by
  rw [expect, skipSpace_cons h]
  exact if_neg hne

theorem readValue_quote (s rest : Bytes) : readValue (quote s ++ rest) = some (s, rest) := by
  have hnull : ¬ ascii "null" <+: quote s ++ rest := by
    rintro ⟨t, ht⟩
    exact absurd (List.cons.inj ht).1 (by decide)
  rw [readValue, if_neg hnull, readString_quote]

/-- One entry is read, and then the rest. -/
theorem readEntries_marshalEntry (fuel : ℕ) (e : Bytes × Bytes) (s : Bytes) (m : StringMap) :
    readEntries (fuel + 1) (marshalEntry e ++ s) m =
      afterEntry (fun s => readEntries fuel s (m.insert e.1 e.2)) (m.insert e.1 e.2) s := by
  rw [readEntries, marshalEntry, append_assoc, cons_append, skipSpace_quote,
    readString_quote, Option.bind_some, expect_cons (by decide), Option.bind_some, skipSpace_quote,
    readValue_quote, Option.bind_some]

theorem length_le_marshalEntries (es : List (Bytes × Bytes)) :
    es.length ≤ (marshalEntries es).length := by
  fun_induction marshalEntries es with
  | case1 => exact le_rfl
  | case2 e => simp [marshalEntry, quote]
  | case3 e es _ ih =>
    simp only [length_cons, length_append]
    omega

/-- The entries written one after another are read into the map, after those that are there. -/
theorem readEntries_marshalEntries (rest : Bytes) (m' : StringMap) {es : List (Bytes × Bytes)}
    {fuel : ℕ} {m : StringMap} (hne : es ≠ []) (hfuel : es.length ≤ fuel)
    (hm : m'.entries = m.entries ++ es) :
    readEntries fuel (marshalEntries es ++ 125 :: rest) m = some (m', rest) := by
  induction es generalizing fuel m with
  | nil => exact absurd rfl hne
  | cons e es ih =>
    rw [length_cons] at hfuel
    obtain ⟨k, rfl⟩ : ∃ k, fuel = k + 1 := ⟨fuel - 1, by omega⟩
    have hinsert : (m.insert e.1 e.2).entries = m.entries ++ [e] := by
      refine StringMap.insertEntry_last fun a ha => ?_
      have hsorted := m'.sorted
      rw [hm] at hsorted
      exact (pairwise_append.1 hsorted).2.2 a ha e mem_cons_self
    cases es with
    | nil =>
      have hm' : m.insert e.1 e.2 = m' := StringMap.ext (by rw [hinsert, hm])
      rw [marshalEntries, readEntries_marshalEntry, afterEntry,
        expect_other (by decide) (by decide), expect_cons (by decide), hm', Option.map_some]
    | cons e' es =>
      have hrest := ih (m := m.insert e.1 e.2) (cons_ne_nil _ _) (Nat.le_of_succ_le_succ hfuel)
        (by rw [hinsert, hm, append_assoc, singleton_append])
      rw [marshalEntries, append_assoc, readEntries_marshalEntry, cons_append,
        afterEntry, expect_cons (by decide)]
      · exact hrest
      · exact cons_ne_nil _ _

/-- **Reading gives back the map.** -/
@[simp] theorem unmarshal_marshal : unmarshal (marshal m) = some m := by
  have hbrace : isSpace 123 = false := by decide
  have hread : readObject (marshal m) = some (m, []) := by
    have hnull : ¬ ascii "null" <+: skipSpace (marshal m) := by
      rw [marshal, cons_append, skipSpace_cons hbrace]
      rintro ⟨t, ht⟩
      exact absurd (List.cons.inj ht).1 (by decide)
    rw [readObject, if_neg hnull, marshal, cons_append, expect_cons hbrace, Option.bind_some]
    cases hm : m.entries with
    | nil =>
      have hempty : StringMap.empty = m := StringMap.ext hm.symm
      rw [marshalEntries, nil_append, expect_cons (by decide), hempty]
    | cons e es =>
      have hopen : expect 125 (marshalEntries (e :: es) ++ [125]) = none := by
        have hquote : ∃ t, marshalEntries (e :: es) = 34 :: t := by
          cases es <;> exact ⟨_, rfl⟩
        obtain ⟨t, ht⟩ := hquote
        rw [ht]
        exact expect_other (by decide) (by decide) _
      rw [hopen]
      refine readEntries_marshalEntries [] m (cons_ne_nil _ _) ?_ hm
      have := length_le_marshalEntries (e :: es)
      rw [length_append]
      omega
  rw [unmarshal, hread]
  rfl

end Gombit
