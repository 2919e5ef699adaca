import Gombit.Resources.Fields

/-!
# Constraints in the model file

`modelStructTag` writes the struct tag of a field of a model, between back quotes: the column for GORM,
the policy, the constraints, and the format of the kind. A program reads the constraints back with
`StructTag.Get` and `ParseConstraints`.

The value of a tag is the body of a Go string literal, and nothing is escaped on the way into it.

* `survives_iff`: the constraints of a field that is accepted come back as they were if and only if
  no text of them has a backslash, a line break or a byte outside the characters of UTF-8.
* `digits_lost`: a field whose pattern is lost.
-/

namespace Gombit.Resources

open List

/-! ## The tag of a field -/

/-- `enumColumnSize`. -/
def enumColumnSize (values : List Bytes) : ℕ := max ((values.map List.length).foldl max 0 + 16) 32

/-- The column of a kind. -/
def gormColumn (f : Field) : List Bytes :=
  match f.kind with
  | .string | .email | .url | .slug | .ip =>
    [ascii "size:" ++ formatInt (if 0 < f.maxLength then f.maxLength else 255)]
  | .text | .json => [ascii "type:text"]
  | .enum => [ascii "size:" ++ formatInt (Int64.ofNat (enumColumnSize f.enumValues))]
  | .decimal =>
    [ascii "type:decimal(" ++ formatInt f.precision ++ ascii "," ++ formatInt f.scale ++ ascii ")"]
  | .uuid => [ascii "type:char(36)"]
  | .date => [ascii "type:date"]
  | .timeOfDay => [ascii "type:char(8)"]
  | .duration => [ascii "type:bigint"]
  | .file | .image => [ascii "size:512"]
  | .integer | .integer64 | .unsigned | .float | .boolean | .dateTime => []

/-- `sqlCheck`. -/
def sqlCheck (f : Field) : Bytes :=
  (ascii " AND ").intercalate
    ((if f.min ≠ [] then [f.jsonName ++ ascii " >= " ++ f.min] else []) ++
      if f.max ≠ [] then [f.jsonName ++ ascii " <= " ++ f.max] else [])

/-- `gormTag`. -/
def gormTag (f : Field) : Bytes :=
  [59].intercalate
    (gormColumn f ++
      (if f.required ∧ ¬ f.nullable then [ascii "not null"] else []) ++
      (if sqlCheck f ≠ [] then [ascii "check:" ++ sqlCheck f] else []) ++
      if f.unique ∨ f.kind = .file ∨ f.kind = .image then [ascii "uniqueIndex"]
      else if f.index then [ascii "index"] else [])

/-- The query capabilities of a field. -/
def capabilities (f : Field) : List Bytes :=
  (if f.filterable then [ascii "filterable"] else []) ++
    (if f.sortable then [ascii "sortable"] else []) ++
    (if f.searchable then [ascii "searchable"] else []) ++
    if f.aggregatable then [ascii "aggregatable"] else []

/-- `gombitPolicy`. -/
def gombitPolicy (f : Field) : Bytes :=
  if capabilities f = [] then [] else ascii "read,write," ++ [44].intercalate (capabilities f)

/-- The parts of a tag that have a value. -/
def present (parts : List (Bytes × Bytes)) : List (Bytes × Bytes) := parts.filter fun p => p.2 ≠ []

/-- The parts of a tag, with spaces between them. -/
def joinParts (parts : List (Bytes × Bytes)) : Bytes :=
  [32].intercalate (parts.map fun p => tagPart p.1 p.2)

/-- A tag in the source. -/
def backquoted (inner : Bytes) : Bytes := ascii " \x60" ++ inner ++ ascii "\x60"

/-- `structTag`. -/
def structTag (gorm gombit validate : Bytes) : Bytes :=
  let parts := present
    [(ascii "gorm", gorm), (ascii "gombit", gombit), (ascii "validate", validate)]
  if parts = [] then [] else backquoted (joinParts parts)

/-- `strings.TrimPrefix`. -/
def trimStart (lead s : Bytes) : Bytes := if lead.isPrefixOf s then s.drop lead.length else s

/-- `strings.TrimSuffix`. -/
def trimEnd (trail s : Bytes) : Bytes :=
  if trail.isSuffixOf s then s.take (s.length - trail.length) else s

/-- What the kind of a field adds to its tag. -/
def kindParts (f : Field) : List (Bytes × Bytes) :=
  present [(ascii "format", f.kind.openAPIFormat), (ascii "pattern", f.kind.semanticPattern)]

/-- `modelStructTag`. -/
def modelStructTag (f : Field) : Bytes :=
  let base := structTag (gormTag f) (gombitPolicy f) (formatConstraints f.constraints)
  let extras := kindParts f
  if extras = [] then base
  else if base = [] then backquoted (joinParts extras)
  else
    backquoted (trimEnd (ascii "\x60") (trimStart (ascii " \x60") base) ++ 32 :: joinParts extras)

/-- The value of a raw string literal in the source: what is between the back quotes, without carriage
returns. -/
def rawString (source : Bytes) : Bytes :=
  ((source.dropWhile (· ≠ 96)).tail.takeWhile (· ≠ 96)).filter (· ≠ 13)

/-- The text that a program finds under the name of the constraints. -/
def validateTag (f : Field) : Bytes := tagGet (rawString (modelStructTag f)) (ascii "validate")

/-- The constraints come back as they were. Labels that are the values may be missing. -/
def Survives (f : Field) : Prop :=
  ∃ c, parseConstraints (validateTag f) = .ok c ∧ c.min = f.min ∧ c.max = f.max ∧
    c.maxLength = f.maxLength ∧ c.pattern = f.pattern ∧ c.default = f.default ∧
    c.enum = f.enumValues ∧ (c.label = f.enumLabels ∨ f.enumLabels = f.enumValues ∧ c.label = [])

/-! ## The parts of the tag -/

/-- All the parts of the tag of a field. -/
def tagParts (f : Field) : List (Bytes × Bytes) :=
  present
    [(ascii "gorm", gormTag f), (ascii "gombit", gombitPolicy f),
      (ascii "validate", formatConstraints f.constraints)] ++ kindParts f

variable {ps : List (Bytes × Bytes)}

theorem joinParts_cons (p : Bytes × Bytes) (h : ps ≠ []) :
    joinParts (p :: ps) = tagPart p.1 p.2 ++ 32 :: joinParts ps := by
  rw [joinParts, map_cons, intercalate_cons 32 (by simpa using h), ← joinParts]

theorem joinParts_append {qs : List (Bytes × Bytes)} (hp : ps ≠ []) (hq : qs ≠ []) :
    joinParts (ps ++ qs) = joinParts ps ++ 32 :: joinParts qs := by
  induction ps with
  | nil => exact absurd rfl hp
  | cons p ps ih =>
    rcases eq_or_ne ps [] with rfl | hne
    · rw [singleton_append, joinParts_cons p hq]
      simp [joinParts]
    · rw [cons_append, joinParts_cons p (by simp [hne]), ih hne, joinParts_cons p hne,
        append_assoc, cons_append]

theorem trim_backquoted (inner : Bytes) :
    trimEnd (ascii "\x60") (trimStart (ascii " \x60") (backquoted inner)) = inner := by
  have hstart : trimStart (ascii " \x60") (backquoted inner) = inner ++ ascii "\x60" := by
    rw [trimStart, if_pos]
    · rfl
    · rw [List.isPrefixOf_iff_prefix, backquoted, append_assoc]
      exact prefix_append _ _
  rw [hstart, trimEnd, if_pos]
  · rw [length_append, Nat.add_sub_cancel, take_left]
  · rw [List.isSuffixOf_iff_suffix]
    exact suffix_append _ _

/-- The tag is that of all its parts. -/
theorem modelStructTag_eq (f : Field) :
    modelStructTag f = if tagParts f = [] then [] else backquoted (joinParts (tagParts f)) := by
  have hne : ∀ inner, backquoted inner ≠ [] := by simp [backquoted, ascii, toBytes]
  rw [modelStructTag, tagParts, structTag]
  set base := present [(ascii "gorm", gormTag f), (ascii "gombit", gombitPolicy f),
    (ascii "validate", formatConstraints f.constraints)]
  rcases eq_or_ne (kindParts f) [] with hk | hk
  · rw [if_pos hk, hk, append_nil]
  · rw [if_neg hk]
    rcases eq_or_ne base [] with hb | hb
    · rw [if_pos hb, if_pos rfl, hb, nil_append, if_neg hk]
    · rw [if_neg hb, if_neg (hne _), trim_backquoted, if_neg (by simp [hb]), joinParts_append hb hk]

/-! ### Bytes that need no escape -/

/-- A byte that stands for itself in the literal and does not end it. -/
def isTagSafe (b : UInt8) : Bool := b ≠ 34 && b ≠ 92 && b ≠ 96

/-- A text of such bytes. -/
def TagSafe (s : Bytes) : Prop := ∀ b ∈ s, isTagSafe b = true

variable {s : Bytes}

theorem safe_literal (h : s.all isTagSafe = true) : TagSafe s :=
  all_eq_true.1 h

theorem safe_append {t : Bytes} (hs : TagSafe s)
    (ht : TagSafe t) : TagSafe (s ++ t) := by
  intro b hb
  exact (mem_append.1 hb).elim (hs b) (ht b)

theorem safe_intercalate {sep : Bytes} {vs : List Bytes} (hsep : TagSafe sep)
    (h : ∀ v ∈ vs, TagSafe v) : TagSafe (sep.intercalate vs) := by
  intro b hb
  rcases mem_intercalate hb with hb | ⟨v, hv, hb⟩
  · exact hsep b hb
  · exact h v hv b hb

theorem safe_formatInt (n : Int64) : TagSafe (formatInt n) := by
  intro b hb
  obtain ⟨hle, hge⟩ := mem_formatInt hb
  simp only [isTagSafe, Bool.and_eq_true, decide_eq_true_eq]
  refine ⟨⟨?_, ?_⟩, ?_⟩ <;> rintro rfl
  · exact absurd hle (by decide)
  · exact absurd hge (by decide)
  · exact absurd hge (by decide)

theorem safe_number (h : ∀ b ∈ s, isNumberByte b = true) : TagSafe s := by
  intro b hb
  have hb' := h b hb
  simp only [isTagSafe, Bool.and_eq_true, decide_eq_true_eq]
  refine ⟨⟨?_, ?_⟩, ?_⟩ <;> rintro rfl <;> exact absurd hb' (by decide)

section WellFormed

variable {f : Field} (hf : f.WellFormed)

include hf

theorem safe_jsonName : TagSafe f.jsonName := by
  intro b hb
  simp only [isTagSafe, Bool.and_eq_true, decide_eq_true_eq]
  refine ⟨⟨?_, ?_⟩, ?_⟩ <;> rintro rfl
  · exact hf.name 34 (by decide) hb
  · exact hf.name 92 (by decide) hb
  · exact hf.name 96 (by decide) hb

theorem safe_sqlCheck : TagSafe (sqlCheck f) := by
  have hmin := safe_number fun b hb => hf.numbers b (mem_append_left _ hb)
  have hmax := safe_number fun b hb => hf.numbers b (mem_append_right _ hb)
  refine safe_intercalate (safe_literal (by decide)) fun v hv => ?_
  rcases mem_append.1 hv with hv | hv
  · split at hv
    · rw [mem_singleton.1 hv]
      exact safe_append (safe_append (safe_jsonName hf) (safe_literal (by decide))) hmin
    · cases hv
  · split at hv
    · rw [mem_singleton.1 hv]
      exact safe_append (safe_append (safe_jsonName hf) (safe_literal (by decide))) hmax
    · cases hv

theorem safe_gormTag : TagSafe (gormTag f) := by
  refine safe_intercalate (safe_literal (by decide)) fun v hv => ?_
  simp only [mem_append] at hv
  rcases hv with ((hv | hv) | hv) | hv
  · unfold gormColumn at hv
    split at hv
    all_goals simp only [mem_singleton, not_mem_nil] at hv
    · exact hv ▸ safe_append (safe_literal (by decide)) (safe_formatInt _)
    all_goals first
      | exact hv ▸ safe_literal (by decide)
      | exact hv ▸ safe_append (safe_literal (by decide)) (safe_formatInt _)
      | exact hv ▸ safe_append (safe_append (safe_append (safe_append (safe_literal (by decide))
          (safe_formatInt _)) (safe_literal (by decide))) (safe_formatInt _))
          (safe_literal (by decide))
  · split at hv
    · rw [mem_singleton.1 hv]
      exact safe_literal (by decide)
    · cases hv
  · split at hv
    · rw [mem_singleton.1 hv]
      exact safe_append (safe_literal (by decide)) (safe_sqlCheck hf)
    · cases hv
  · split at hv
    · rw [mem_singleton.1 hv]
      exact safe_literal (by decide)
    split at hv
    · rw [mem_singleton.1 hv]
      exact safe_literal (by decide)
    · cases hv

omit hf in
theorem safe_gombitPolicy (f : Field) : TagSafe (gombitPolicy f) := by
  rw [gombitPolicy]
  split
  · exact nofun
  · refine safe_append (safe_literal (by decide)) (safe_intercalate (safe_literal (by decide)) fun v hv => ?_)
    simp only [capabilities, mem_append] at hv
    rcases hv with ((hv | hv) | hv) | hv <;>
    · split at hv
      · rw [mem_singleton.1 hv]
        exact safe_literal (by decide)
      · cases hv

end WellFormed

/-! ## Reading the tag -/

/-- The parts of a tag after some spaces. -/
def tagText (spaces : Bytes) : List (Bytes × Bytes) → Bytes
  | [] => []
  | p :: ps => spaces ++ tagPart p.1 p.2 ++ tagText [32] ps

theorem tagText_space (h : ps ≠ []) : tagText [32] ps = 32 :: tagText [] ps := by
  cases ps with
  | nil => exact absurd rfl h
  | cons p ps => rfl

theorem joinParts_eq (ps : List (Bytes × Bytes)) : joinParts ps = tagText [] ps := by
  induction ps with
  | nil => rfl
  | cons p ps ih =>
    rcases eq_or_ne ps [] with rfl | hne
    · simp [joinParts, tagText]
    · rw [joinParts_cons p hne, ih, tagText, tagText_space hne, nil_append]

/-- A text without carriage returns. -/
def stripped (s : Bytes) : Bytes := s.filter (· ≠ 13)

theorem stripped_of_notMem (h : 13 ∉ s) : stripped s = s :=
  filter_eq_self.2 fun _ hb => decide_eq_true fun heq => h (heq ▸ hb)

theorem stripped_append (s t : Bytes) : stripped (s ++ t) = stripped s ++ stripped t :=
  filter_append ..

/-- The names of the parts of a tag are names of tags. -/
def IsTagName (name : Bytes) : Prop := name ≠ [] ∧ ∀ b ∈ name, isTagByte b = true

theorem IsTagName.stripped_tagPart {name : Bytes} (h : IsTagName name) (value : Bytes) :
    stripped (tagPart name value) = tagPart name (stripped value) := by
  have hname : 13 ∉ name := fun hmem => absurd (h.2 13 hmem) (by decide)
  rw [tagPart, stripped_append, stripped_append, stripped_of_notMem hname]
  rfl

theorem stripped_tagText (h : ∀ p ∈ ps, IsTagName p.1) {spaces : Bytes}
    (hspaces : ∀ b ∈ spaces, b = 32) :
    stripped (tagText spaces ps) = tagText spaces (ps.map fun p => (p.1, stripped p.2)) := by
  induction ps generalizing spaces with
  | nil => rfl
  | cons p ps ih =>
    have hnot : 13 ∉ spaces := fun hmem => absurd (hspaces 13 hmem) (by decide)
    rw [tagText, stripped_append, stripped_append, stripped_of_notMem hnot,
      (h p mem_cons_self).stripped_tagPart,
      ih (fun q hq => h q (mem_cons_of_mem p hq)) (by simp)]
    rfl

theorem rawString_backquoted {inner : Bytes} (h : 96 ∉ inner) :
    rawString (backquoted inner) = stripped inner := by
  have htake : (inner ++ ascii "\x60").takeWhile (fun b => decide (b ≠ 96)) = inner := by
    have hpos : ∀ b ∈ inner, decide (b ≠ 96) = true := fun b hb =>
      decide_eq_true fun heq => h (heq ▸ hb)
    rw [takeWhile_append_of_pos hpos]
    simp [ascii, toBytes]
  rw [rawString, stripped]
  congr 1

/-- A part that the lookup of another name passes over. -/
structure Skipped (key : Bytes) (p : Bytes × Bytes) : Prop where
  name : IsTagName p.1
  value : closed p.2 = true
  quote : 34 ∉ p.2
  ne : p.1 ≠ key

theorem TagReads.skip_parts {key : Bytes} {rest : List (Bytes × Bytes)} {r : Option Bytes}
    (hps : ∀ p ∈ ps, Skipped key p)
    (h : ∀ spaces : Bytes, (∀ b ∈ spaces, b = 32) → TagReads key (tagText spaces rest) r)
    {spaces : Bytes} (hspaces : ∀ b ∈ spaces, b = 32) :
    TagReads key (tagText spaces (ps ++ rest)) r := by
  induction ps generalizing spaces with
  | nil => exact h spaces hspaces
  | cons p ps ih =>
    have hp := hps p mem_cons_self
    refine TagReads.skip hp.name.1 hp.name.2 spaces hspaces hp.value hp.quote hp.ne ?_
    exact ih (fun q hq => hps q (mem_cons_of_mem p hq)) (by simp)

theorem closed_of_safe (h : TagSafe s) : closed s = true ∧ 34 ∉ s ∧ 96 ∉ s :=
  ⟨closed_of_notMem fun hmem => absurd (h 92 hmem) (by decide),
    fun hmem => absurd (h 34 hmem) (by decide), fun hmem => absurd (h 96 hmem) (by decide)⟩

theorem safe_stripped (h : TagSafe s) :
    TagSafe (stripped s) := fun _ hb => h _ (mem_of_mem_filter hb)

theorem isTagName_names (name : Bytes)
    (h : name ∈ [ascii "gorm", ascii "gombit", ascii "validate", ascii "format", ascii "pattern"]) :
    IsTagName name ∧ 96 ∉ name ∧ ∀ b ∈ name, isLiteral b = true ∧ b ≠ 59 := by
  have hall : ∀ name ∈ [ascii "gorm", ascii "gombit", ascii "validate", ascii "format",
      ascii "pattern"], (name ≠ [] ∧ name.all isTagByte = true) ∧ 96 ∉ name ∧
        (name.all isLiteral = true ∧ 59 ∉ name) := by
    decide
  obtain ⟨⟨hne, htag⟩, hback, hliteral, hsemicolon⟩ := hall name h
  refine ⟨⟨hne, all_eq_true.1 htag⟩, hback, fun b hb => ⟨all_eq_true.1 hliteral b hb, ?_⟩⟩
  rintro rfl
  exact hsemicolon hb

/-- The format and the pattern of a kind are written as they are. -/
theorem kindParts_spec (f : Field) {p : Bytes × Bytes} (hp : p ∈ kindParts f) :
    (p.1 = ascii "format" ∨ p.1 = ascii "pattern") ∧ 13 ∉ p.2 ∧ TagSafe p.2 := by
  have hmem := mem_of_mem_filter hp
  simp only [mem_cons, not_mem_nil, or_false] at hmem
  rcases hmem with rfl | rfl
  · refine ⟨.inl rfl, ?_⟩
    cases f.kind <;> exact ⟨by decide, safe_literal (by decide)⟩
  · refine ⟨.inr rfl, ?_⟩
    cases f.kind <;> exact ⟨by decide, safe_literal (by decide)⟩

/-- What comes before the constraints in the tag. -/
def leadParts (f : Field) : List (Bytes × Bytes) :=
  present [(ascii "gorm", gormTag f), (ascii "gombit", gombitPolicy f)]

theorem tagParts_eq (f : Field) :
    tagParts f = leadParts f ++
      (present [(ascii "validate", formatConstraints f.constraints)] ++ kindParts f) := by
  rw [tagParts, leadParts, ← append_assoc]
  congr 1
  exact filter_append [(ascii "gorm", gormTag f), (ascii "gombit", gombitPolicy f)]
    [(ascii "validate", formatConstraints f.constraints)]

section Reading

variable {f : Field} (hf : f.WellFormed)

include hf

theorem skipped_leadParts :
    ∀ p ∈ leadParts f, (Skipped (ascii "validate") (p.1, stripped p.2)) ∧ 96 ∉ tagPart p.1 p.2 := by
  intro p hp
  have hmem := mem_of_mem_filter hp
  simp only [mem_cons, not_mem_nil, or_false] at hmem
  have hpart : ∀ {name value : Bytes}, (name = ascii "gorm" ∨ name = ascii "gombit") →
      TagSafe value →
      Skipped (ascii "validate") (name, stripped value) ∧ 96 ∉ tagPart name value := by
    intro name value hname hsafe
    obtain ⟨htag, h96, -⟩ := isTagName_names name (by
      rcases hname with rfl | rfl <;> decide)
    obtain ⟨hclosed, hquote, -⟩ := closed_of_safe (safe_stripped hsafe)
    refine ⟨⟨htag, hclosed, hquote, ?_⟩, ?_⟩
    · show name ≠ ascii "validate"
      rcases hname with rfl | rfl <;> decide
    · simp [tagPart, h96, (closed_of_safe hsafe).2.2]
  rcases hmem with rfl | rfl
  · exact hpart (.inl rfl) (safe_gormTag hf)
  · exact hpart (.inr rfl) (safe_gombitPolicy f)

omit hf in
theorem skipped_kindParts (f : Field) {p : Bytes × Bytes} (hp : p ∈ kindParts f) :
    Skipped (ascii "validate") p ∧ 96 ∉ tagPart p.1 p.2 := by
  obtain ⟨hname, -, hsafe⟩ := kindParts_spec f hp
  obtain ⟨htag, h96, -⟩ := isTagName_names p.1 (by
    rcases hname with h | h <;> rw [h] <;> decide)
  obtain ⟨hclosed, hquote, hback⟩ := closed_of_safe hsafe
  refine ⟨⟨htag, hclosed, hquote, ?_⟩, by simp [tagPart, h96, hback]⟩
  rcases hname with h | h <;> rw [h] <;> decide

omit hf in
theorem stripped_kindParts (f : Field) :
    ((kindParts f).map fun p => (p.1, stripped p.2)) = kindParts f := by
  conv_rhs => rw [← map_id (kindParts f)]
  refine map_congr_left fun p hp => ?_
  rw [stripped_of_notMem (kindParts_spec f hp).2.1]
  rfl

theorem backquote_notMem_joinParts : 96 ∉ joinParts (tagParts f) := by
  refine notMem_intercalate (by decide) fun t ht => ?_
  obtain ⟨p, hp, rfl⟩ := mem_map.1 ht
  rw [tagParts_eq, mem_append, mem_append] at hp
  rcases hp with hp | hp | hp
  · exact (skipped_leadParts hf p hp).2
  · have hmem := mem_singleton.1 (mem_of_mem_filter hp)
    have h96 := (partByPart_notMem (by decide)).formatConstraints _ |>.2 fun v hv => (hf.texts v hv).backquote
    obtain ⟨-, hname, -⟩ := isTagName_names (ascii "validate") (by decide)
    rw [hmem]
    simp [tagPart, hname, h96]
  · exact (skipped_kindParts f hp).2

theorem isTagName_tagParts : ∀ p ∈ tagParts f, IsTagName p.1 := by
  intro p hp
  rw [tagParts_eq, mem_append, mem_append] at hp
  rcases hp with hp | hp | hp
  · exact (skipped_leadParts hf p hp).1.name
  · rw [mem_singleton.1 (mem_of_mem_filter hp)]
    exact (isTagName_names (ascii "validate") (by decide)).1
  · exact (skipped_kindParts f hp).1.name

/-- **What is read of the constraints**: the literal that starts where they were written. -/
theorem validateTag_eq :
    validateTag f =
      if formatConstraints f.constraints = [] then []
      else ((scanQuoted (stripped (formatConstraints f.constraints) ++
        34 :: tagText [32] (kindParts f))).bind fun p => unquoteGo p.1).getD [] := by
  set T := formatConstraints f.constraints with hT
  -- the tag is its parts, each without carriage returns
  have hraw : rawString (modelStructTag f) =
      tagText [] ((tagParts f).map fun p => (p.1, stripped p.2)) := by
    rw [modelStructTag_eq]
    split
    · rename_i hnil
      rw [hnil]
      rfl
    · rw [rawString_backquoted (backquote_notMem_joinParts hf), joinParts_eq,
        stripped_tagText (isTagName_tagParts hf) (by simp)]
  have hlead : ∀ p ∈ (leadParts f).map fun p => (p.1, stripped p.2), Skipped (ascii "validate") p := by
    intro p hp
    obtain ⟨q, hq, rfl⟩ := mem_map.1 hp
    exact (skipped_leadParts hf q hq).1
  rw [validateTag, hraw, tagParts_eq, map_append, map_append, stripped_kindParts]
  split
  · rename_i hnil
    have hpresent : present [(ascii "validate", T)] = [] := by simp [present, hnil]
    rw [hpresent]
    have hnone : ∀ spaces : Bytes, (∀ b ∈ spaces, b = 32) →
        TagReads (ascii "validate") (tagText spaces (kindParts f ++ [])) none := fun spaces hspaces =>
      TagReads.skip_parts (fun p hp => (skipped_kindParts f hp).1) (fun _ _ => TagReads.nil _) hspaces
    rw [append_nil] at hnone
    exact (TagReads.skip_parts hlead hnone (by simp)).get
  · rename_i hne
    have hpresent : present [(ascii "validate", T)] = [(ascii "validate", T)] := by
      simp [present, hne]
    rw [hpresent]
    obtain ⟨hname, -, -⟩ := isTagName_names (ascii "validate") (by decide)
    exact (TagReads.skip_parts hlead (fun spaces hspaces =>
      TagReads.found hname.1 hname.2 spaces hspaces rfl) (by simp)).get

end Reading

/-! ## What survives -/

/-- A text that stands for itself in a tag: no backslash, no line break, and only characters. -/
def StandsForItself (s : Bytes) : Prop := 92 ∉ s ∧ 10 ∉ s ∧ 13 ∉ s ∧ validUTF8 s = true

theorem partByPart_standsForItself : PartByPart StandsForItself :=
  (partByPart_notMem (by decide)).and ((partByPart_notMem (by decide)).and
    ((partByPart_notMem (by decide)).and partByPart_validUTF8))

theorem format_written (c : Constraints) : formatConstraints c.written = formatConstraints c := by
  have hlabel : c.written.value .label = c.value .label := by
    show (if labelsDiffer c.enum (shown c.enum c.label) then
      some ([44].intercalate (shown c.enum c.label)) else none) = _
    rcases shown_cases c.enum c.label with hshown | ⟨hsame, hshown⟩
    · rw [hshown]
      rfl
    · rw [hshown, Constraints.value, hsame]
      simp [labelsDiffer]
  have hvalue : c.written.value = c.value := by
    funext k
    cases k with
    | label => exact hlabel
    | _ => rfl
  rw [formatConstraints, formatConstraints, Constraints.tokens, Constraints.tokens, hvalue]

/-- The constraints that come back are written as the field's. -/
theorem written_of_same {f : Field} {c : Constraints} (hmin : c.min = f.min) (hmax : c.max = f.max)
    (hlength : c.maxLength = f.maxLength) (hpattern : c.pattern = f.pattern)
    (hdefault : c.default = f.default) (henum : c.enum = f.enumValues)
    (hlabel : c.label = f.enumLabels ∨ f.enumLabels = f.enumValues ∧ c.label = []) :
    c.written = f.constraints.written := by
  have hshown : shown c.enum c.label = shown f.enumValues f.enumLabels := by
    rcases hlabel with h | ⟨hsame, hnil⟩
    · rw [h, henum]
    · rw [hnil, hsame, shown_self, shown_nil]
  rw [Constraints.written, Constraints.written, hshown, hmin, hmax, hlength, hpattern, hdefault, henum]
  rfl

section Survival

variable {f : Field} (hf : f.WellFormed)

include hf

theorem survives_of_standsForItself (h : StandsForItself (formatConstraints f.constraints)) :
    Survives f := by
  obtain ⟨hslash, hline, hreturn, hutf8⟩ := h
  have hquote := (partByPart_notMem (by decide)).formatConstraints _ |>.2 fun v hv => (hf.texts v hv).quote
  have hread : validateTag f = formatConstraints f.constraints := by
    rw [validateTag_eq hf]
    split
    · rename_i hnil
      exact hnil.symm
    · rw [stripped_of_notMem hreturn, scanQuoted_closed (closed_of_notMem hslash) hquote,
        Option.bind_some, unquoteGo_of_plain hslash hline hutf8, Option.getD_some]
  exact ⟨f.constraints.written, hread ▸ parse_format hf.constraints, rfl, rfl, rfl, rfl, rfl, rfl,
    shown_cases f.enumValues f.enumLabels⟩

/-- A text that does not stand for itself is read as a lighter one, or not at all, if its literal ends
where it was written. -/
theorem weight_validateTag_lt (hnot : ¬ StandsForItself (formatConstraints f.constraints))
    (hclosed : closed (stripped (formatConstraints f.constraints)) = true) :
    weight (validateTag f) < weight (formatConstraints f.constraints) := by
  have hquote := (partByPart_notMem (by decide)).formatConstraints _ |>.2 fun v hv => (hf.texts v hv).quote
  set T := formatConstraints f.constraints
  have hne : T ≠ [] := by
    intro hnil
    refine hnot ?_
    rw [hnil]
    exact ⟨by simp, by simp, by simp, rfl⟩
  have hpos : 0 < weight T := by
    have := length_le_weight T
    have := length_pos_iff.2 hne
    omega
  have hstrip := weight_filter_le (by decide : (13 : UInt8) < 0x80) T
  rw [validateTag_eq hf, if_neg hne,
    scanQuoted_closed hclosed fun hmem => hquote (mem_of_mem_filter hmem), Option.bind_some]
  dsimp only
  cases hread : unquoteGo (stripped T) with
  | none => exact hpos
  | some out =>
    rw [Option.getD_some]
    by_cases hreturn : 13 ∈ T
    · exact (weight_unquoteGo_le hread).trans_lt (hstrip.2 hreturn)
    · rw [stripped_of_notMem hreturn] at hread
      by_cases hrewritten : Rewritten T
      · exact weight_unquoteGo_lt hrewritten hread
      · -- what is left is a line break, which is refused
        rw [Rewritten, not_or, not_not] at hrewritten
        obtain ⟨hslash, hstrays⟩ := hrewritten
        have hline : 10 ∈ T := by
          by_contra hline
          exact hnot ⟨hslash, hline, hreturn, validUTF8_iff.2 hstrays⟩
        rw [unquoteGo_newline hslash hline] at hread
        cases hread

/-- A literal whose last backslash escapes the quote goes on into the next part of the tag. -/
theorem validateTag_open (hopen : closed (stripped (formatConstraints f.constraints)) = false) :
    validateTag f = [] ∨ ∃ w t, validateTag f = w ++ 34 :: t ∧ 59 ∉ t := by
  have hquote := (partByPart_notMem (by decide)).formatConstraints _ |>.2 fun v hv => (hf.texts v hv).quote
  set T := formatConstraints f.constraints
  rw [validateTag_eq hf]
  split
  · exact .inl rfl
  have hquote : 34 ∉ stripped T := fun hmem => hquote (mem_of_mem_filter hmem)
  rw [scanQuoted_append hquote, hopen, if_neg Bool.false_ne_true]
  cases hparts : kindParts f with
  | nil => exact .inl rfl
  | cons p ps =>
    obtain ⟨hname, -⟩ := kindParts_spec f (hparts ▸ mem_cons_self : p ∈ kindParts f)
    obtain ⟨-, -, hliteral⟩ := isTagName_names p.1 (by
      rcases hname with h | h <;> rw [h] <;> decide)
    -- the next quote is the one that opens the value of the next part
    have hlit : ∀ b ∈ 32 :: p.1 ++ [58], isLiteral b = true ∧ b ≠ 59 := by
      intro b hb
      simp only [cons_append, mem_cons, mem_append, not_mem_nil, or_false] at hb
      rcases hb with rfl | hb | rfl
      · decide
      · exact hliteral b hb
      · decide
    have hscan : scanQuoted (tagText [32] (p :: ps)) =
        some (32 :: p.1 ++ [58], p.2 ++ [34] ++ tagText [32] ps) := by
      have htext : tagText [32] (p :: ps) =
          (32 :: p.1 ++ [58]) ++ 34 :: (p.2 ++ [34] ++ tagText [32] ps) := by
        simp [tagText, tagPart]
      rw [htext]
      refine scanQuoted_closed (closed_of_notMem fun h92 => ?_) (fun h34 => ?_) _
      · exact absurd (hlit 92 h92).1 (by decide)
      · exact absurd (hlit 34 h34).1 (by decide)
    obtain ⟨t, ht, htclosed⟩ := exists_of_not_closed hopen
    rw [hscan, Option.map_some, Option.bind_some, ht]
    have hbody : t ++ [92] ++ 34 :: (32 :: p.1 ++ [58]) = t ++ 92 :: 34 :: (32 :: p.1 ++ [58]) := by
      simp
    dsimp only
    rw [hbody]
    cases hread : unquoteGo (t ++ 92 :: 34 :: (32 :: p.1 ++ [58])) with
    | none => exact .inl rfl
    | some out =>
      rw [unquoteGo, if_neg (by simp)] at hread
      obtain ⟨w, rfl⟩ := unquoteChars_quote (fun b hb => (hlit b hb).1) htclosed hread
      exact .inr ⟨w, _, rfl, fun h59 => (hlit 59 h59).2 rfl⟩

/-- The constraints do not come back if their text does not stand for itself. -/
theorem not_survives (hnot : ¬ StandsForItself (formatConstraints f.constraints)) : ¬ Survives f := by
  rintro ⟨c, hparse, hmin, hmax, hlength, hpattern, hdefault, henum, hlabel⟩
  have hwritten := written_of_same hmin hmax hlength hpattern hdefault henum hlabel
  have hformat : formatConstraints c = formatConstraints f.constraints := by
    rw [← format_written c, hwritten, format_written]
  have hweight := weight_format_le hparse
  rw [hformat] at hweight
  cases hclosed : closed (stripped (formatConstraints f.constraints)) with
  | true => exact absurd (weight_validateTag_lt hf hnot hclosed) (not_lt.2 hweight)
  | false =>
    rcases validateTag_open hf hclosed with hnil | ⟨w, t, htag, hsemicolon⟩
    · rw [hnil] at hweight
      have hlen := length_le_weight (formatConstraints f.constraints)
      have hzero : weight [] = 0 := rfl
      have hempty : formatConstraints f.constraints = [] := length_eq_zero_iff.1 (by omega)
      rw [hempty] at hclosed
      cases hclosed
    · -- a quote is read that no text of the field has
      rw [htag] at hparse
      obtain ⟨v, hv, hquote⟩ := quote_mem_of_parse hsemicolon hparse
      refine (hf.texts v ?_).quote hquote
      simp only [Constraints.texts, hmin, hmax, hpattern, hdefault, henum] at hv
      rcases hlabel with hlabel | ⟨-, hlabel⟩
      · rwa [hlabel] at hv
      · rw [hlabel, append_nil] at hv
        exact mem_append_left _ hv

end Survival

/-- **The constraints of a scalar field that is accepted come back from the model file as they were** if
and only if each of their texts stands for itself: it has no backslash, no line break and no byte outside
the characters of UTF-8. -/
theorem survives_iff {u : Unicode} {lib : Library} {lookup : Option PkLookup} {resourcePkg : Bytes}
    {specs : List Bytes} {fields : List ParsedField}
    (h : parseFieldsWithID u lib lookup resourcePkg specs = .ok fields) {f : Field}
    (hf : .scalar f ∈ fields) : Survives f ↔ ∀ v ∈ f.constraints.texts, StandsForItself v := by
  have hwell := parseFields_wellFormed h hf
  rw [← partByPart_standsForItself.formatConstraints]
  refine ⟨fun hsurvives => ?_, survives_of_standsForItself hwell⟩
  by_contra hnot
  exact not_survives hwell hnot hsurvives

/-- A postal code of digits. -/
def postcode (pattern : Bytes) : Field := { jsonName := ascii "zip", kind := .string, pattern }

theorem survives_postcode :
    parseFieldsWithID basicLatin trusting none (ascii "address") [ascii "zip:string:regex=^[0-9]+$"] =
        .ok [.scalar (postcode (ascii "^[0-9]+$"))] ∧
      Survives (postcode (ascii "^[0-9]+$")) := by
  have hparse : parseFieldsWithID basicLatin trusting none (ascii "address")
      [ascii "zip:string:regex=^[0-9]+$"] = .ok [.scalar (postcode (ascii "^[0-9]+$"))] := by
    decide +kernel
  have htexts : ∀ v ∈ (postcode (ascii "^[0-9]+$")).constraints.texts,
      92 ∉ v ∧ 10 ∉ v ∧ 13 ∉ v ∧ validUTF8 v = true := by decide +kernel
  exact ⟨hparse, (survives_iff hparse mem_cons_self).2 htexts⟩

/-- With `\d` for a digit, which is accepted, the tag is not a literal and the pattern is lost. -/
theorem digits_lost :
    parseFields basicLatin trusting (ascii "address") [ascii "zip:string:regex=^\\d+$"] =
        .ok [.scalar (postcode (ascii "^\\d+$"))] ∧
      modelStructTag (postcode (ascii "^\\d+$")) =
        ascii " \x60gorm:\"size:255\" validate:\"pattern=^\\d+$\"\x60" ∧
      validateTag (postcode (ascii "^\\d+$")) = [] ∧ ¬ Survives (postcode (ascii "^\\d+$")) := by
  have htag : validateTag (postcode (ascii "^\\d+$")) = [] := by decide +kernel
  refine ⟨by decide +kernel, by decide +kernel, htag, ?_⟩
  rintro ⟨c, hparse, -, -, -, hpattern, -⟩
  rw [htag] at hparse
  obtain rfl : Constraints.empty = c := Except.ok.inj hparse
  exact absurd hpattern (by decide)

end Gombit.Resources
