import Gombit.Foundations.Program
import Gombit.Foundations.Strays

/-!
# Constraints of a field

The constraints of a model field as a text (`formatConstraints`): `key=value` tokens with semicolons
between them, read back by `parseConstraints`.

* `parse_format`: reading gives back the constraints that were written.
* `weight_format_le`: no text reads as the same constraints and is lighter than theirs.
* `quote_mem_of_parse`: a quote in the last token is in the constraints that are read.
* `PartByPart.formatConstraints`: what the texts of the constraints have in common, their text has.
-/

namespace Gombit.Resources

open List

/-- `Constraints`: the bounds of a number, the length and the pattern of a text, the default, and the
values of an enumeration with what is displayed for them. -/
structure Constraints where
  min : Bytes
  max : Bytes
  maxLength : Int64
  pattern : Bytes
  default : Bytes
  enum : List Bytes
  label : List Bytes
deriving DecidableEq

def Constraints.empty : Constraints := ⟨[], [], 0, [], [], [], []⟩

/-! ## Writing -/

/-- The keys of the text, in the order in which they are written. -/
inductive Key
  | min | max | maxLength | pattern | default | enum | label
deriving DecidableEq

def Key.all : List Key := [.min, .max, .maxLength, .pattern, .default, .enum, .label]

def Key.name : Key → Bytes
  | .min => ascii "min"
  | .max => ascii "max"
  | .maxLength => ascii "max_length"
  | .pattern => ascii "pattern"
  | .default => ascii "default"
  | .enum => ascii "enum"
  | .label => ascii "label"

/-- `labelsDiffer`: what is displayed is not the stored value. -/
def labelsDiffer (values labels : List Bytes) : Bool := labels ≠ [] ∧ labels ≠ values

/-- A text that is set. -/
def nonempty (v : Bytes) : Option Bytes := if v = [] then none else some v

/-- The value of a key in the text, if it is written. -/
def Constraints.value (c : Constraints) : Key → Option Bytes
  | .min => nonempty c.min
  | .max => nonempty c.max
  | .maxLength => if 0 < c.maxLength then some (formatInt c.maxLength) else none
  | .pattern => nonempty c.pattern
  | .default => nonempty c.default
  | .enum => if c.enum = [] then none else some ([44].intercalate c.enum)
  | .label => if labelsDiffer c.enum c.label then some ([44].intercalate c.label) else none

/-- A token of the text. -/
def token (k : Key) (v : Bytes) : Bytes := k.name ++ 61 :: v

/-- The tokens of the constraints that are set. -/
def Constraints.tokens (c : Constraints) (ks : List Key) : List Bytes :=
  ks.filterMap fun k => (c.value k).map (token k)

/-- `FormatConstraints`. -/
def formatConstraints (c : Constraints) : Bytes := [59].intercalate (c.tokens Key.all)

/-! ## Reading -/

inductive ConstraintError
  | emptyToken
  | notKeyValue (part : Bytes)
  | maxLength (val : Bytes)
  | emptyEnumValue
  | emptyLabelValue
  | unknownKey (key : Bytes)
  | labelCount (labels values : ℕ)
deriving DecidableEq

/-- The values of a list, none of them empty. -/
def parseValues (empty : ConstraintError) (val : Bytes) : Except ConstraintError (List Bytes) :=
  let values := (val.splitOn 44).map trimSpace
  if [] ∈ values then .error empty else .ok values

/-- The key of a name. -/
def Key.find (name : Bytes) : Option Key := Key.all.find? fun k => k.name = name

/-- The constraints with the value of a key. Values of an enumeration come after those that are
there. -/
def Constraints.set (c : Constraints) (val : Bytes) : Key → Except ConstraintError Constraints
  | .min => .ok { c with min := val }
  | .max => .ok { c with max := val }
  | .maxLength =>
    match readInt val with
    | some n => if 0 < n then .ok { c with maxLength := n } else .error (.maxLength val)
    | none => .error (.maxLength val)
  | .pattern => .ok { c with pattern := val }
  | .default => .ok { c with default := val }
  | .enum => (parseValues .emptyEnumValue val).map fun vs => { c with enum := c.enum ++ vs }
  | .label => (parseValues .emptyLabelValue val).map fun vs => { c with label := c.label ++ vs }

/-- The constraints after one token. -/
def parseToken (c : Constraints) (part : Bytes) : Except ConstraintError Constraints :=
  let part := trimSpace part
  if part = [] then .error .emptyToken
  else
    match cut 61 part with
    | none => .error (.notKeyValue part)
    | some (key, val) =>
      let val := trimSpace val
      if val = [] then .error (.notKeyValue part)
      else
        match Key.find (toLower (trimSpace key)) with
        | none => .error (.unknownKey key)
        | some k => c.set val k

/-- `ParseConstraints`. -/
def parseConstraints (tag : Bytes) : Except ConstraintError Constraints :=
  let tag := trimSpace tag
  if tag = [] then .ok .empty
  else do
    let c ← (tag.splitOn 59).foldlM parseToken .empty
    if c.label ≠ [] ∧ c.label.length ≠ c.enum.length then
      .error (.labelCount c.label.length c.enum.length)
    else .ok c

/-! ## What is read back -/

/-- A value that a token can carry: trimmed, not empty and without a semicolon. -/
structure IsValue (v : Bytes) : Prop where
  ne_nil : v ≠ []
  trimmed : Trimmed v
  semicolon : 59 ∉ v

/-- A value of a list: one that a token can carry, without a comma. -/
structure IsItem (v : Bytes) : Prop extends IsValue v where
  comma : 44 ∉ v

/-- Constraints that the text can carry. -/
structure Constraints.WellFormed (c : Constraints) : Prop where
  min : c.min ≠ [] → IsValue c.min
  max : c.max ≠ [] → IsValue c.max
  maxLength : 0 ≤ c.maxLength
  pattern : c.pattern ≠ [] → IsValue c.pattern
  default : c.default ≠ [] → IsValue c.default
  enum : ∀ v ∈ c.enum, IsItem v
  label : ∀ v ∈ c.label, IsItem v
  labels : c.label.length = c.enum.length

theorem Key.find_name (k : Key) : Key.find (toLower (trimSpace k.name)) = some k := by
  cases k <;> decide

theorem Key.name_plain (k : Key) : leadLen k.name = 0 ∧ k.name ≠ [] ∧ 61 ∉ k.name ∧ 59 ∉ k.name := by
  cases k <;> decide

theorem Key.name_ascii (k : Key) : ∀ b ∈ k.name, b < 0x80 := by
  have hall : (k.name.all fun b => decide (b < 0x80)) = true := by cases k <;> decide
  simpa only [all_eq_true, decide_eq_true_eq] using hall

variable {v : Bytes} {vs : List Bytes} {c : Constraints} {k : Key}

theorem IsValue.trimmed_token (hv : IsValue v) (k : Key) : Trimmed (token k v) := by
  obtain ⟨hlead, hne, -, -⟩ := k.name_plain
  exact Trimmed.append_cons (by decide) hlead hne hv.trimmed hv.ne_nil

/-- A token that is written is read. -/
theorem parseToken_token (c : Constraints) (k : Key) (hv : IsValue v) :
    parseToken c (token k v) = c.set v k := by
  have hne : token k v ≠ [] := by simp [token]
  have hcut : cut 61 (token k v) = some (k.name, v) := cut_append_cons k.name_plain.2.2.1 v
  rw [parseToken]
  dsimp only
  rw [(hv.trimmed_token k).trimSpace_eq, if_neg hne, hcut]
  dsimp only
  rw [hv.trimmed.trimSpace_eq, if_neg hv.ne_nil, k.find_name]

theorem isValue_formatInt (n : Int64) : IsValue (formatInt n) where
  ne_nil := by
    intro h
    have := readInt_formatInt n
    rw [h] at this
    cases this
  trimmed := by
    refine trimmed_of_plain fun b hb => ?_
    obtain ⟨hle, hge⟩ := mem_formatInt hb
    have hlt : b < 0x80 := UInt8.lt_of_le_of_lt hge (by decide)
    have h₁ : ¬ b ≤ 13 := UInt8.not_le.2 (UInt8.lt_of_lt_of_le (by decide) hle)
    have h₂ : b ≠ 32 := by
      rintro rfl
      exact absurd hle (by decide)
    simp [isPlain, isSpace1, hlt, h₁, h₂]
  semicolon := fun h => absurd (mem_formatInt h).2 (by decide)

variable {x : UInt8}

/-- Trimmed strings with a plain byte between them are a trimmed string. -/
theorem trimmed_intercalate (hx : isPlain x = true) (hne : vs ≠ [])
    (h : ∀ v ∈ vs, v ≠ [] ∧ Trimmed v) :
    [x].intercalate vs ≠ [] ∧ Trimmed ([x].intercalate vs) := by
  induction vs with
  | nil => exact absurd rfl hne
  | cons v vs ih =>
    obtain ⟨hv, htrim⟩ := h v mem_cons_self
    rcases eq_or_ne vs [] with rfl | hvs
    · rw [intercalate_singleton]
      exact ⟨hv, htrim⟩
    · obtain ⟨hne', htrim'⟩ := ih hvs fun w hw => h w (mem_cons_of_mem v hw)
      rw [intercalate_cons x hvs]
      exact ⟨by simp, Trimmed.append_cons hx htrim.1 hv htrim' hne'⟩

theorem isValue_intercalate (hne : vs ≠ []) (h : ∀ v ∈ vs, IsItem v) :
    IsValue ([44].intercalate vs) := by
  obtain ⟨hnil, htrim⟩ := trimmed_intercalate (by decide : isPlain 44 = true) hne
    fun v hv => ⟨(h v hv).ne_nil, (h v hv).trimmed⟩
  exact ⟨hnil, htrim, notMem_intercalate (by decide) fun v hv => (h v hv).semicolon⟩

/-- A list that is written is read. -/
theorem parseValues_intercalate (hne : vs ≠ []) (h : ∀ v ∈ vs, IsItem v) (e : ConstraintError) :
    parseValues e ([44].intercalate vs) = .ok vs := by
  have hsplit : ([44].intercalate vs).splitOn 44 = vs :=
    splitOn_intercalate 44 (fun v hv => (h v hv).comma) hne
  have htrim : vs.map trimSpace = vs := by
    conv_rhs => rw [← map_id vs]
    exact map_congr_left fun v hv => (h v hv).trimmed.trimSpace_eq
  rw [parseValues, hsplit, htrim, if_neg fun hmem => (h [] hmem).ne_nil rfl]

/-- The values of the keys can be carried. -/
theorem Constraints.WellFormed.isValue (hc : c.WellFormed) (h : c.value k = some v) :
    IsValue v := by
  have hnonempty : ∀ {t : Bytes}, (t ≠ [] → IsValue t) → nonempty t = some v → IsValue v := by
    intro t ht hv
    rw [nonempty] at hv
    split_ifs at hv
    obtain rfl := Option.some.inj hv
    exact ht ‹_›
  cases k with
  | min => exact hnonempty hc.min h
  | max => exact hnonempty hc.max h
  | maxLength =>
    rw [value] at h
    split_ifs at h
    obtain rfl := Option.some.inj h
    exact isValue_formatInt _
  | pattern => exact hnonempty hc.pattern h
  | default => exact hnonempty hc.default h
  | enum =>
    rw [value] at h
    split_ifs at h
    obtain rfl := Option.some.inj h
    exact isValue_intercalate ‹_› hc.enum
  | label =>
    rw [value] at h
    split_ifs at h
    rename_i hdiffer
    obtain rfl := Option.some.inj h
    exact isValue_intercalate (of_decide_eq_true hdiffer).1 hc.label

/-- The constraints of some of the keys. -/
def Constraints.restrict (c : Constraints) (ks : List Key) : Constraints where
  min := if .min ∈ ks then c.min else []
  max := if .max ∈ ks then c.max else []
  maxLength := if .maxLength ∈ ks then c.maxLength else 0
  pattern := if .pattern ∈ ks then c.pattern else []
  default := if .default ∈ ks then c.default else []
  enum := if .enum ∈ ks then c.enum else []
  label := if .label ∈ ks ∧ labelsDiffer c.enum c.label then c.label else []

theorem eq_nil_of_nonempty (h : nonempty v = none) : v = [] := by
  rw [nonempty] at h
  split_ifs at h
  assumption

theorem eq_of_nonempty {w : Bytes} (h : nonempty v = some w) : v = w := by
  rw [nonempty] at h
  split_ifs at h
  exact Option.some.inj h

variable {ks : List Key} {e : ConstraintError}

/-- A key without a value adds nothing. -/
theorem Constraints.restrict_none (hc : c.WellFormed) (hk : k ∉ ks) (h : c.value k = none) :
    c.restrict (ks ++ [k]) = c.restrict ks := by
  cases k with
  | min | max | pattern | default => simp [restrict, hk, eq_nil_of_nonempty h]
  | maxLength =>
    have hzero : c.maxLength = 0 := by
      rw [value] at h
      split_ifs at h
      exact Int64.le_antisymm (Int64.not_lt.1 ‹_›) hc.maxLength
    simp [restrict, hk, hzero]
  | enum =>
    have hnil : c.enum = [] := by
      rw [value] at h
      split_ifs at h
      assumption
    simp [restrict, hk, hnil]
  | label =>
    have hsame : labelsDiffer c.enum c.label = false := by
      rw [value] at h
      split_ifs at h
      exact Bool.not_eq_true _ ▸ ‹_›
    simp [restrict, hsame]

/-- A key with a value sets it. -/
theorem Constraints.restrict_some (hc : c.WellFormed) (hk : k ∉ ks) (h : c.value k = some v) :
    (c.restrict ks).set v k = .ok (c.restrict (ks ++ [k])) := by
  cases k with
  | min | max | pattern | default => simp [restrict, set, hk, eq_of_nonempty h]
  | maxLength =>
    rw [value] at h
    split_ifs at h
    rename_i hpos
    obtain rfl := Option.some.inj h
    simp [restrict, set, hk, hpos]
  | enum =>
    rw [value] at h
    split_ifs at h
    rename_i hne
    obtain rfl := Option.some.inj h
    rw [set, parseValues_intercalate hne hc.enum]
    simp [restrict, hk, Except.map]
  | label =>
    rw [value] at h
    split_ifs at h
    rename_i hdiffer
    obtain rfl := Option.some.inj h
    rw [set, parseValues_intercalate (of_decide_eq_true hdiffer).1 hc.label]
    simp [restrict, hk, hdiffer, Except.map]

/-- The tokens are read one after another. -/
theorem foldlM_tokens (hc : c.WellFormed) (done : List Key) (h : (done ++ ks).Nodup) :
    (c.tokens ks).foldlM parseToken (c.restrict done) = .ok (c.restrict (done ++ ks)) := by
  induction ks generalizing done with
  | nil => simp [Constraints.tokens, pure, Except.pure]
  | cons k ks ih =>
    have hk : k ∉ done := fun hmem =>
      (disjoint_of_nodup_append h) hmem mem_cons_self
    have hrest := ih (done ++ [k]) (by simpa using h)
    rw [append_assoc, singleton_append] at hrest
    cases hv : c.value k with
    | none =>
      rw [Constraints.tokens, filterMap_cons_none (by rw [hv]; rfl),
        ← Constraints.restrict_none hc hk hv]
      exact hrest
    | some v =>
      rw [Constraints.tokens, filterMap_cons_some (by rw [hv]; rfl), foldlM_cons,
        parseToken_token _ k (hc.isValue hv), Constraints.restrict_some hc hk hv]
      exact hrest

/-- The labels that are written. -/
def shown (values labels : List Bytes) : List Bytes := if labelsDiffer values labels then labels else []

theorem shown_cases (values labels : List Bytes) :
    shown values labels = labels ∨ labels = values ∧ shown values labels = [] := by
  rw [shown]
  split
  · exact .inl rfl
  · rename_i hsame
    simp only [labelsDiffer, decide_eq_true_eq, not_and_or, not_not] at hsame
    exact hsame.imp Eq.symm fun heq => ⟨heq, rfl⟩

theorem shown_self (values : List Bytes) : shown values values = [] := by simp [shown, labelsDiffer]

theorem shown_nil (values : List Bytes) : shown values [] = [] := by simp [shown]

/-- The constraints with the labels that are written. -/
def Constraints.written (c : Constraints) : Constraints := { c with label := shown c.enum c.label }

theorem Constraints.restrict_all (c : Constraints) : c.restrict Key.all = c.written := by
  simp [restrict, written, shown, Key.all]

theorem Constraints.WellFormed.trimmed_tokens (hc : c.WellFormed) (ks : List Key) :
    ∀ t ∈ c.tokens ks, t ≠ [] ∧ Trimmed t ∧ 59 ∉ t := by
  intro t ht
  obtain ⟨k, -, hk⟩ := mem_filterMap.1 ht
  obtain ⟨v, hv, rfl⟩ := Option.map_eq_some_iff.1 hk
  have hvalue := hc.isValue hv
  refine ⟨by simp [token], hvalue.trimmed_token k, ?_⟩
  rw [token, mem_append, mem_cons]
  rintro (hmem | hmem | hmem)
  · exact k.name_plain.2.2.2 hmem
  · exact absurd hmem (by decide)
  · exact hvalue.semicolon hmem

/-- **Constraints that are written are read back.** -/
theorem parse_format (hc : c.WellFormed) :
    parseConstraints (formatConstraints c) = .ok c.written := by
  have htokens := hc.trimmed_tokens Key.all
  have hfold : (c.tokens Key.all).foldlM parseToken .empty = .ok c.written := by
    rw [← c.restrict_all]
    exact foldlM_tokens hc [] (by decide)
  rcases eq_or_ne (c.tokens Key.all) [] with hnil | hne
  · rw [hnil] at hfold
    rw [formatConstraints, hnil]
    exact hfold
  · obtain ⟨hne', htrim⟩ := trimmed_intercalate (by decide : isPlain 59 = true) hne
      fun t ht => ⟨(htokens t ht).1, (htokens t ht).2.1⟩
    have hsplit : ([59].intercalate (c.tokens Key.all)).splitOn 59 = c.tokens Key.all :=
      splitOn_intercalate 59 (fun t ht => (htokens t ht).2.2) hne
    have hlabels : ¬ (c.written.label ≠ [] ∧ c.written.label.length ≠ c.written.enum.length) := by
      rintro ⟨hlabel, hlen⟩
      rcases shown_cases c.enum c.label with hshown | ⟨-, hshown⟩
      · exact hlen ((congrArg List.length hshown).trans hc.labels)
      · exact hlabel hshown
    rw [formatConstraints, parseConstraints, htrim.trimSpace_eq, if_neg hne', hsplit, hfold]
    exact if_neg hlabels

/-! ## No lighter text -/

/-- What the token of a key adds to the weight of a text, with its separator. -/
def entryWeight (k : Key) : Option Bytes → ℕ
  | none => 0
  | some v => weight (token k v) + 2

theorem entryWeight_nonempty (k : Key) (v : Bytes) :
    entryWeight k (nonempty v) ≤ weight (token k v) + 2 := by
  rw [nonempty]
  split
  · exact Nat.zero_le _
  · exact le_rfl

/-- The values of a list, as one. -/
def joined (vs : List Bytes) : Option Bytes := if vs = [] then none else some ([44].intercalate vs)

theorem weight_token (k : Key) (v : Bytes) : weight (token k v) = weight k.name + 2 + weight v :=
  weight_append_cons (by decide) k.name v

theorem entryWeight_joined (k : Key) (vs : List Bytes) :
    entryWeight k (joined vs) =
      if vs = [] then 0 else weight k.name + 2 + (vs.map fun v => weight v + 2).sum := by
  rw [joined]
  split
  · rfl
  · rename_i hne
    rw [entryWeight, weight_token, sum_weight_intercalate (by decide : (44 : UInt8) < 0x80) hne]
    omega

/-- The weight of constraints: that of their tokens, labels counted even if they are the values. -/
def Constraints.cost (c : Constraints) : ℕ :=
  entryWeight .min (nonempty c.min) + entryWeight .max (nonempty c.max) +
    entryWeight .maxLength (c.value .maxLength) + entryWeight .pattern (nonempty c.pattern) +
    entryWeight .default (nonempty c.default) + entryWeight .enum (joined c.enum) +
    entryWeight .label (joined c.label)

theorem sum_weight_tokens (c : Constraints) (ks : List Key) :
    ((c.tokens ks).map fun t => weight t + 2).sum = (ks.map fun k => entryWeight k (c.value k)).sum := by
  induction ks with
  | nil => rfl
  | cons k ks ih =>
    rw [map_cons, sum_cons, ← ih, Constraints.tokens]
    cases hv : c.value k with
    | none =>
      rw [filterMap_cons_none (by rw [hv]; rfl), entryWeight, Nat.zero_add]
      rfl
    | some v =>
      rw [filterMap_cons_some (by rw [hv]; rfl)]
      rfl

theorem weight_format_le_cost (c : Constraints) : weight (formatConstraints c) ≤ c.cost - 2 := by
  have hlabel : entryWeight .label (c.value .label) ≤ entryWeight .label (joined c.label) := by
    rw [Constraints.value]
    split
    · rename_i hdiffer
      rw [joined, if_neg (of_decide_eq_true hdiffer).1]
    · exact Nat.zero_le _
  have hsum : ((c.tokens Key.all).map fun t => weight t + 2).sum ≤ c.cost := by
    rw [sum_weight_tokens]
    simp only [Key.all, map_cons, map_nil, sum_cons, sum_nil]
    have henum : c.value .enum = joined c.enum := rfl
    rw [Constraints.cost, henum]
    simp only [Constraints.value] at hlabel ⊢
    omega
  rcases eq_or_ne (c.tokens Key.all) [] with hnil | hne
  · rw [formatConstraints, hnil]
    exact Nat.zero_le _
  · rw [sum_weight_intercalate (by decide : (59 : UInt8) < 0x80) hne] at hsum
    rw [formatConstraints]
    omega

variable {val : Bytes}

theorem sum_weight_parseValues (h : parseValues e val = .ok vs) :
    (vs.map fun v => weight v + 2).sum ≤ weight val + 2 := by
  rw [parseValues] at h
  split_ifs at h
  cases h
  rw [← sum_weight_splitOn (by decide : (44 : UInt8) < 0x80) val, map_map]
  generalize val.splitOn 44 = ts
  induction ts with
  | nil => exact le_rfl
  | cons t ts ih =>
    have := weight_trimSpace_le t
    simp only [map_cons, sum_cons, Function.comp_apply] at ih ⊢
    omega

theorem entryWeight_append_le (k : Key) (vs : List Bytes) {ws : List Bytes} {n : ℕ}
    (h : (ws.map fun v => weight v + 2).sum ≤ n + 2) :
    entryWeight k (joined (vs ++ ws)) ≤ entryWeight k (joined vs) + (weight k.name + 2 + n + 2) := by
  simp only [entryWeight_joined, append_eq_nil_iff, map_append, sum_append]
  split
  · exact Nat.zero_le _
  · split
    · simp_all
      omega
    · omega

variable {c' : Constraints}

/-- The value of a key adds at most the weight of its token. -/
theorem cost_set_le (h : c.set val k = .ok c') : c'.cost ≤ c.cost + (weight (token k val) + 2) := by
  have hmin := entryWeight_nonempty .min val
  have hmax := entryWeight_nonempty .max val
  have hpattern := entryWeight_nonempty .pattern val
  have hdefault := entryWeight_nonempty .default val
  cases k with
  | min | max | pattern | default =>
    cases h
    simp only [Constraints.cost, Constraints.value]
    omega
  | maxLength =>
    rw [Constraints.set] at h
    split at h
    · rename_i n hn
      split at h
      · rename_i hpos
        cases h
        have hlen := length_formatInt_le hn
        have hweight : weight (formatInt n) = 2 * (formatInt n).length :=
          weight_of_ascii fun b hb => UInt8.lt_of_le_of_lt (mem_formatInt hb).2 (by decide)
        have hval := length_le_weight val
        simp only [Constraints.cost, Constraints.value, if_pos hpos, entryWeight, weight_token]
        omega
      · cases h
    · cases h
  | enum =>
    obtain ⟨vs, hvs, rfl⟩ := ok_of_map h
    have := entryWeight_append_le .enum c.enum (sum_weight_parseValues hvs)
    simp only [Constraints.cost, Constraints.value, weight_token]
    omega
  | label =>
    obtain ⟨vs, hvs, rfl⟩ := ok_of_map h
    have := entryWeight_append_le .label c.label (sum_weight_parseValues hvs)
    simp only [Constraints.cost, Constraints.value, weight_token]
    omega

variable {part : Bytes}

/-- The parts of a token that is read. -/
theorem parseToken_cases (h : parseToken c part = .ok c') :
    ∃ key val k, trimSpace part = key ++ 61 :: val ∧
      Key.find (toLower (trimSpace key)) = some k ∧ c.set (trimSpace val) k = .ok c' := by
  rw [parseToken] at h
  dsimp only at h
  split at h
  · cases h
  split at h
  · cases h
  rename_i key val hcut
  split at h
  · cases h
  split at h
  · cases h
  rename_i k hk
  exact ⟨key, val, k, eq_of_cut hcut, hk, h⟩

theorem Key.find_eq {name : Bytes} (h : Key.find name = some k) : k.name = name := by
  have hfound := List.find?_some h
  exact of_decide_eq_true hfound

theorem cost_parseToken_le (h : parseToken c part = .ok c') :
    c'.cost ≤ c.cost + (weight part + 2) := by
  obtain ⟨key, val, k, hpart, hk, hset⟩ := parseToken_cases h
  have hname : weight k.name ≤ weight key := by
    rw [weight_of_ascii k.name_ascii, Key.find_eq hk]
    have hlower := length_toLower_le (trimSpace key)
    have htrim := length_trimSpace_le key
    have hweight := length_le_weight key
    omega
  have hval := weight_trimSpace_le val
  have htrim := weight_trimSpace_le part
  rw [hpart, weight_append_cons (by decide)] at htrim
  have hcost := cost_set_le hset
  rw [weight_token] at hcost
  omega

theorem cost_foldlM_le {parts : List Bytes} (h : parts.foldlM parseToken c = .ok c') :
    c'.cost ≤ c.cost + (parts.map fun t => weight t + 2).sum := by
  induction parts generalizing c with
  | nil =>
    cases h
    exact Nat.le_add_right _ _
  | cons part parts ih =>
    rw [foldlM_cons] at h
    obtain ⟨c₁, hpart, htail⟩ := ok_of_bind h
    have hfirst := cost_parseToken_le hpart
    have hrest := ih htail
    rw [map_cons, sum_cons]
    omega

/-- The tokens that a text is read as. -/
theorem parseConstraints_cases {u : Bytes} (h : parseConstraints u = .ok c) :
    (trimSpace u = [] ∧ c = .empty) ∨
      ((trimSpace u).splitOn 59).foldlM parseToken .empty = .ok c := by
  rw [parseConstraints] at h
  split at h
  · cases h
    exact .inl ⟨‹_›, rfl⟩
  · obtain ⟨c₁, hfold, hcount⟩ := ok_of_bind h
    split at hcount
    · cases hcount
    · cases hcount
      exact .inr hfold

/-- **No text that is read as the constraints is lighter than the one that is written.** -/
theorem weight_format_le {u : Bytes} (h : parseConstraints u = .ok c) :
    weight (formatConstraints c) ≤ weight u := by
  rcases parseConstraints_cases h with ⟨-, rfl⟩ | hfold
  · exact Nat.zero_le _
  · have hcost := cost_foldlM_le hfold
    have hempty : Constraints.empty.cost = 0 := rfl
    rw [sum_weight_splitOn (by decide : (59 : UInt8) < 0x80)] at hcost
    have htrim := weight_trimSpace_le u
    have hformat := weight_format_le_cost c
    omega

/-! ## A quote in the last token -/

/-- The texts that constraints hold. -/
def Constraints.texts (c : Constraints) : List Bytes :=
  [c.min, c.max, c.pattern, c.default] ++ c.enum ++ c.label

theorem mem_parseValues (h : parseValues e val = .ok vs)
    (hx : isPlain x = true) (hne : x ≠ 44) (hmem : x ∈ val) : ∃ v ∈ vs, x ∈ v := by
  rw [parseValues] at h
  split_ifs at h
  cases h
  have hjoin : [44].intercalate (val.splitOn 44) = val := intercalate_splitOn 44
  rw [← hjoin] at hmem
  by_contra hnone
  refine notMem_intercalate hne (fun t ht hxt => hnone ?_) hmem
  exact ⟨trimSpace t, mem_map_of_mem ht, mem_trimSpace hx hxt⟩

/-- A byte of a value is in the constraints, unless the value is a number. -/
theorem mem_set (h : c.set val k = .ok c') (hx : isPlain x = true) (hne : x ≠ 44)
    (hnumber : ¬ (43 ≤ x ∧ x ≤ 57)) (hmem : x ∈ val) : ∃ v ∈ c'.texts, x ∈ v := by
  cases k with
  | min | max | pattern | default =>
    cases h
    exact ⟨val, by simp [Constraints.texts], hmem⟩
  | maxLength =>
    rw [Constraints.set] at h
    split at h
    · rename_i n hn
      obtain ⟨hle, hge, -⟩ := mem_of_readInt hn hmem
      exact absurd ⟨hle, hge⟩ hnumber
    · cases h
  | enum | label =>
    obtain ⟨vs, hvs, rfl⟩ := ok_of_map h
    obtain ⟨v, hv, hxv⟩ := mem_parseValues hvs hx hne hmem
    exact ⟨v, by simp [Constraints.texts, hv], hxv⟩

theorem mem_parseToken (h : parseToken c part = .ok c') (hmem : 34 ∈ part) :
    ∃ v ∈ c'.texts, 34 ∈ v := by
  obtain ⟨key, val, k, hpart, hk, hset⟩ := parseToken_cases h
  have hmem' := mem_trimSpace (by decide) hmem
  rw [hpart, mem_append, mem_cons] at hmem'
  rcases hmem' with hkey | hsep | hval
  · -- no key has a quote in its name
    have hname := mem_toLower (by decide) (by decide) (mem_trimSpace (by decide) hkey)
    rw [← Key.find_eq hk] at hname
    exact absurd hname (by cases k <;> decide)
  · exact absurd hsep (by decide)
  · exact mem_set hset (by decide) (by decide) (by decide) (mem_trimSpace (by decide) hval)

/-- **A quote in the last token is in the constraints that are read.** -/
theorem quote_mem_of_parse {w t : Bytes} (ht : 59 ∉ t)
    (h : parseConstraints (w ++ 34 :: t) = .ok c) : ∃ v ∈ c.texts, 34 ∈ v := by
  obtain ⟨w', t', htrim, -, hlead⟩ := trimSpace_append_cons (by decide : isPlain 34 = true) w t
  rcases parseConstraints_cases h with ⟨hnil, -⟩ | hfold
  · rw [htrim] at hnil
    simp at hnil
  · obtain ⟨parts, last, hsplit, hlast⟩ := splitOn_append_cons (by decide : (34 : UInt8) ≠ 59)
      (s := w') (fun hmem => ht (hlead.subset hmem))
    rw [htrim, hsplit, foldlM_append] at hfold
    obtain ⟨c₁, -, htail⟩ := ok_of_bind hfold
    rw [foldlM_cons] at htail
    obtain ⟨c₂, hparse, hnil⟩ := ok_of_bind htail
    cases hnil
    exact mem_parseToken hparse hlast

/-! ## Properties of the text -/

/-- A property of texts that goes by the parts around the separators, and that the names of the keys and
numbers have. -/
structure PartByPart (P : Bytes → Prop) : Prop where
  nil : P []
  append_cons : ∀ {x : UInt8}, x ∈ [59, 61, 44] → ∀ s t, P (s ++ x :: t) ↔ P s ∧ P t
  name : ∀ k : Key, P k.name
  number : ∀ n : Int64, P (formatInt n)

namespace PartByPart

variable {P Q : Bytes → Prop} (hP : PartByPart P)

include hP

theorem and (hQ : PartByPart Q) : PartByPart fun s => P s ∧ Q s where
  nil := ⟨hP.nil, hQ.nil⟩
  append_cons hx s t := by rw [hP.append_cons hx, hQ.append_cons hx, and_and_and_comm]
  name k := ⟨hP.name k, hQ.name k⟩
  number n := ⟨hP.number n, hQ.number n⟩

theorem intercalate (hx : x ∈ [59, 61, 44]) (vs : List Bytes) :
    P ([x].intercalate vs) ↔ ∀ v ∈ vs, P v := by
  induction vs with
  | nil => simpa using hP.nil
  | cons v vs ih =>
    rcases eq_or_ne vs [] with rfl | hne
    · simp
    · rw [intercalate_cons x hne, hP.append_cons hx, ih, forall_mem_cons]

/-- **The text has the property if and only if the texts of the constraints do.** -/
theorem formatConstraints (c : Constraints) :
    P (formatConstraints c) ↔ ∀ v ∈ c.texts, P v := by
  have htext : ∀ {t : Bytes}, (∀ v, nonempty t = some v → P v) → P t := by
    intro t h
    rcases eq_or_ne t [] with rfl | hne
    · exact hP.nil
    · exact h t (if_neg hne)
  constructor
  · intro h
    have hvalue : ∀ k v, c.value k = some v → P v := by
      intro k v hv
      have htoken := (hP.intercalate (by decide) _).1 h (token k v)
        (mem_filterMap.2 ⟨k, by cases k <;> decide, by rw [hv]; rfl⟩)
      exact ((hP.append_cons (by decide) _ _).1 htoken).2
    have henum : ∀ v ∈ c.enum, P v := fun v hv =>
      (hP.intercalate (by decide) _).1 (hvalue .enum _ (if_neg (ne_nil_of_mem hv))) v hv
    have hlabel : ∀ v ∈ c.label, P v := by
      intro v hv
      by_cases hdiffer : labelsDiffer c.enum c.label = true
      · exact (hP.intercalate (by decide) _).1 (hvalue .label _ (if_pos hdiffer)) v hv
      · have hsame : c.label = c.enum := by simpa [labelsDiffer, ne_nil_of_mem hv] using hdiffer
        exact henum v (hsame ▸ hv)
    intro v hv
    simp only [Constraints.texts, mem_append, mem_cons, not_mem_nil, or_false] at hv
    rcases hv with ((rfl | rfl | rfl | rfl) | hv) | hv
    · exact htext (hvalue .min)
    · exact htext (hvalue .max)
    · exact htext (hvalue .pattern)
    · exact htext (hvalue .default)
    · exact henum v hv
    · exact hlabel v hv
  · intro h
    refine (hP.intercalate (by decide) _).2 fun t ht => ?_
    obtain ⟨k, -, hk⟩ := mem_filterMap.1 ht
    obtain ⟨v, hv, rfl⟩ := Option.map_eq_some_iff.1 hk
    refine (hP.append_cons (by decide) _ _).2 ⟨hP.name k, ?_⟩
    cases k with
    | min | max | pattern | default =>
      rw [← eq_of_nonempty hv]
      exact h _ (by simp [Constraints.texts])
    | maxLength =>
      rw [Constraints.value] at hv
      split_ifs at hv
      exact Option.some.inj hv ▸ hP.number _
    | enum | label =>
      rw [Constraints.value] at hv
      split_ifs at hv
      rw [← Option.some.inj hv]
      exact (hP.intercalate (by decide) _).2 fun w hw => h w (by simp [Constraints.texts, hw])

end PartByPart

/-- A byte of neither the grammar nor a number. -/
theorem partByPart_notMem {y : UInt8} (hy : y ∈ [10, 13, 34, 92, 96]) :
    PartByPart fun s => y ∉ s := by
  have hall : (([10, 13, 34, 92, 96] : List UInt8).all fun y =>
      ([59, 61, 44].all fun x => decide (y ≠ x)) && decide ((∀ k ∈ Key.all, y ∉ k.name) ∧
        ¬ (45 ≤ y ∧ y ≤ 57))) = true := by decide
  simp only [all_eq_true, Bool.and_eq_true, decide_eq_true_eq] at hall
  obtain ⟨hsep, hname, hnumber⟩ := hall y hy
  refine ⟨not_mem_nil, fun {x} hx s t => ?_, fun k => hname k (by cases k <;> decide),
    fun n hmem => hnumber (mem_formatInt hmem)⟩
  simp [hsep x hx, not_or]

theorem partByPart_validUTF8 : PartByPart fun s => validUTF8 s = true where
  nil := rfl
  append_cons {x} hx s t := by
    have hascii : (([59, 61, 44] : List UInt8).all fun x => decide (x < 0x80)) = true := by decide
    simp only [all_eq_true, decide_eq_true_eq] at hascii
    simp only [validUTF8_iff, strays_append_cons (hascii x hx), Nat.add_eq_zero_iff]
  name k := validUTF8_iff.2 (strays_of_ascii k.name_ascii)
  number n := validUTF8_iff.2 (strays_of_ascii fun b hb =>
    UInt8.lt_of_le_of_lt (mem_formatInt hb).2 (by decide))

end Gombit.Resources
