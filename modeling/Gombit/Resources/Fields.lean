import Gombit.Resources.Constraints
import Gombit.Resources.Patterns
import Gombit.Types.Decimal
import Mathlib.Data.FinEnum

/-!
# The fields of a resource

A field is specified as `name:type[:modifier,…]`. `parseField` reads a specification and refuses one
whose name, type or modifiers do not fit together; `parseFields` reads a list of them.

* `WellFormed`: what holds of a scalar field that is accepted. Its constraints can be written
  (`Constraints.WellFormed`), and none of their texts has a quote.
* `parseFields_wellFormed`: every scalar field that is accepted is well formed.
-/

namespace Gombit.Resources

open List Types

/-! ## Kinds -/

/-- `field.Kind`: the kinds of scalar fields. -/
inductive Kind
  | string | text | integer | integer64 | unsigned | float | decimal | boolean | date | dateTime
  | timeOfDay | duration | uuid | json | email | url | slug | ip | enum | file | image
deriving DecidableEq

/-- `field.RelationKind`. -/
inductive RelationKind
  | belongsTo | hasMany | manyToMany | oneToOne
deriving DecidableEq

def Kind.all : List Kind :=
  [.string, .text, .integer, .integer64, .unsigned, .float, .decimal, .boolean, .date, .dateTime,
    .timeOfDay, .duration, .uuid, .json, .email, .url, .slug, .ip, .enum, .file, .image]

def RelationKind.all : List RelationKind := [.belongsTo, .hasMany, .manyToMany, .oneToOne]

/-- The names of a kind in a specification. -/
def Kind.tokens : Kind → List Bytes
  | .string => [ascii "string"]
  | .text => [ascii "text"]
  | .integer => [ascii "int", ascii "integer"]
  | .integer64 => [ascii "int64", ascii "integer64"]
  | .unsigned => [ascii "uint", ascii "unsigned"]
  | .float => [ascii "float", ascii "float64"]
  | .decimal => [ascii "decimal"]
  | .boolean => [ascii "bool", ascii "boolean"]
  | .date => [ascii "date"]
  | .dateTime => [ascii "time", ascii "datetime"]
  | .timeOfDay => [ascii "time_of_day"]
  | .duration => [ascii "duration"]
  | .uuid => [ascii "uuid"]
  | .json => [ascii "json"]
  | .email => [ascii "email"]
  | .url => [ascii "url"]
  | .slug => [ascii "slug"]
  | .ip => [ascii "ip"]
  | .enum => [ascii "enum"]
  | .file => [ascii "file"]
  | .image => [ascii "image"]

def RelationKind.token : RelationKind → Bytes
  | .belongsTo => ascii "belongs_to"
  | .hasMany => ascii "has_many"
  | .manyToMany => ascii "many_to_many"
  | .oneToOne => ascii "one_to_one"

/-- `ParseCLI`. -/
def parseCLI (token : Bytes) : Option (Kind ⊕ RelationKind) :=
  let token := toLower (trimSpace token)
  match Kind.all.find? fun k => token ∈ k.tokens with
  | some k => some (.inl k)
  | none => (RelationKind.all.find? fun r => token = r.token).map .inr

/-- `AllowsFilter`. -/
def Kind.filterable (k : Kind) : Bool :=
  k ∈ [.string, .integer, .integer64, .unsigned, .boolean, .uuid, .enum]

/-- `AllowsSearch`. -/
def Kind.searchable (k : Kind) : Bool := k ∈ [.string, .text, .email, .slug, .enum]

/-- `AllowsSort`. -/
def Kind.sortable (k : Kind) : Bool := k ∉ [.json, .file, .image]

/-- `AllowsAggregate`. -/
def Kind.aggregatable (k : Kind) : Bool := k ∈ [.integer, .integer64, .unsigned, .decimal]

/-- `constraintNumeric`. -/
def Kind.numeric (k : Kind) : Bool := k ∈ [.integer, .integer64, .unsigned, .decimal]

/-- `takesMaxLength`. -/
def Kind.takesMaxLength (k : Kind) : Bool := k ∈ [.string, .email, .url, .slug, .ip]

/-- `openAPIFormat`. -/
def Kind.openAPIFormat : Kind → Bytes
  | .email => ascii "email"
  | .url => ascii "uri"
  | .ip => ascii "ip"
  | .duration => ascii "duration"
  | _ => []

/-- `semanticPattern`. -/
def Kind.semanticPattern : Kind → Bytes
  | .slug => ascii "^[-a-zA-Z0-9_]+$"
  | .timeOfDay =>
    ascii "^([01][0-9]|2[0-3]):[0-5][0-9](:[0-5][0-9](Z|[+-]([01][0-9]|2[0-3]):[0-5][0-9])?)?$"
  | _ => []

/-! ## Fields -/

/-- `Field`, for a scalar. An empty text and a maximal length of zero are not set. -/
structure Field where
  jsonName : Bytes
  kind : Kind
  required : Bool := false
  unique : Bool := false
  index : Bool := false
  nullable : Bool := false
  filterable : Bool := false
  sortable : Bool := false
  searchable : Bool := false
  aggregatable : Bool := false
  enumValues : List Bytes := []
  enumLabels : List Bytes := []
  precision : Int64 := 0
  scale : Int64 := 0
  min : Bytes := []
  max : Bytes := []
  maxLength : Int64 := 0
  pattern : Bytes := []
  default : Bytes := []
deriving DecidableEq

/-- `constraints`. -/
def Field.constraints (f : Field) : Constraints where
  min := f.min
  max := f.max
  maxLength := f.maxLength
  pattern := f.pattern
  default := f.default
  enum := f.enumValues
  label := f.enumLabels

/-- `Field`, for a relation. -/
structure Relation where
  jsonName : Bytes
  kind : RelationKind
  target : Bytes
  targetPkg : Bytes
  onDelete : Bytes
  self : Bool
  nullable : Bool
  fkGoType : Bytes
deriving DecidableEq

inductive ParsedField
  | scalar (f : Field)
  | relation (r : Relation)
deriving DecidableEq

/-- What the number is for. -/
inductive Bound
  | min | max | default
deriving DecidableEq

inductive FieldError
  | emptySpec
  | shape (spec : Bytes)
  | invalidName (name : Bytes)
  | reservedColumn (jsonName : Bytes)
  | reservedQuery (jsonName : Bytes)
  | duplicate (key : Bytes)
  | relationShape (text : Bytes) (kind : RelationKind)
  | missingTarget (name : Bytes)
  | invalidTarget (target : Bytes)
  | reservedTarget (target package : Bytes)
  | keywordTarget (target package : Bytes)
  | relationModifiers (kind : RelationKind) (jsonName : Bytes)
  | onDelete (jsonName : Bytes)
  | unknownRelationModifier (jsonName mod : Bytes)
  | setNull (kind : RelationKind) (name : Bytes)
  | selfMany (kind : RelationKind) (name : Bytes)
  | selfRequired (kind : RelationKind) (name : Bytes)
  | lookup
  | unknownType (token : Bytes)
  | noArguments (base : Bytes)
  | decimalShape (args : Bytes)
  | decimalPrecision (text : Bytes)
  | decimalScale (text : Bytes)
  | decimalRange (precision scale : Int64)
  | enumMissing (jsonName : Bytes)
  | enumEmpty
  | enumCharacter (piece : Bytes)
  | enumDuplicate (value : Bytes)
  | unsupportedModifier (mod : Bytes)
  | unknownModifier (mod : Bytes)
  | defaultMissing (jsonName : Bytes)
  | maxLength (jsonName val : Bytes)
  | regexMissing (jsonName : Bytes)
  | regexInvalid (jsonName : Bytes)
  | regexNotShared (jsonName : Bytes)
  | notNumeric (jsonName : Bytes) (kind : Kind)
  | number (jsonName : Bytes) (bound : Bound) (raw : Bytes)
  | inexact (jsonName : Bytes) (bound : Bound) (raw : Bytes)
  | column (jsonName : Bytes) (bound : Bound) (raw : Bytes) (precision scale : Int64)
  | incomparable (jsonName raw : Bytes)
  | minAboveMax (jsonName min max : Bytes)
  | checkReserved (jsonName : Bytes)
  | noMaxLength (jsonName : Bytes) (kind : Kind)
  | noRegex (jsonName : Bytes) (kind : Kind)
  | quoted (jsonName : Bytes)
  | badDefault (jsonName default : Bytes)
  | defaultTooLong (jsonName : Bytes)
  | defaultBelowMin (jsonName default min : Bytes)
  | defaultAboveMax (jsonName default max : Bytes)
  | noDefault (jsonName : Bytes) (kind : Kind)
  | requiredNullable (jsonName : Bytes)
  | notFilterable (jsonName : Bytes) (kind : Kind)
  | notSearchable (jsonName : Bytes) (kind : Kind)
  | notSortable (jsonName : Bytes) (kind : Kind)
  | notAggregatable (jsonName : Bytes) (kind : Kind)
deriving DecidableEq

/-- What is used of regexp, of Huma's formats and of the clock. -/
structure Library where
  /-- `regexp.Compile` takes the pattern. -/
  compiles : Bytes → Bool
  /-- `MatchString`. -/
  matchString : Bytes → Bytes → Bool
  /-- `formatAccepts`. -/
  formatAccepts : Bytes → Bytes → Bool
  /-- `ParseTimeOfDay` takes the text. -/
  parseTimeOfDay : Bytes → Bool

/-- The library that refuses nothing. -/
def trusting : Library := ⟨fun _ => true, fun _ _ => true, fun _ _ => true, fun _ => true⟩

/-! ## Types -/

/-- `splitTypeArgs`. -/
def splitTypeArgs (token : Bytes) : Bytes × Option Bytes :=
  match cut 40 token with
  | none => (token, none)
  | some (base, rest) =>
    if token.getLast? = some 41 then (trimSpace base, some rest.dropLast) else (token, none)

/-- `parseDecimalArgs`. -/
def parseDecimalArgs (args : Bytes) : Except FieldError (Int64 × Int64) :=
  match args.splitOn 44 with
  | [precision, scale] =>
    match readInt (trimSpace precision) with
    | none => .error (.decimalPrecision precision)
    | some p =>
      match readInt (trimSpace scale) with
      | none => .error (.decimalScale scale)
      | some s => if p ≤ 0 ∨ s < 0 ∨ p < s then .error (.decimalRange p s) else .ok (p, s)
  | _ => .error (.decimalShape args)

/-- `enumTokenOK`. -/
def enumTokenOK (s : Bytes) : Bool :=
  s ≠ [] && (codes s).all fun r => r ∉ [34, 96, 92, 59, 60, 62, 38, 123, 125, 10, 13]

/-- One piece of the values of an enumeration, after those that came before it. -/
def parseEnumPiece (seen : List (Bytes × Bytes)) (piece : Bytes) :
    Except FieldError (List (Bytes × Bytes)) :=
  let piece := trimSpace piece
  if piece = [] then .error .enumEmpty
  else
    let value := trimSpace (((cut 61 piece).map Prod.fst).getD piece)
    let label := ((cut 61 piece).map fun p => trimSpace p.2).getD value
    if value = [] ∨ label = [] then .error .enumEmpty
    else if ¬ enumTokenOK value ∨ ¬ enumTokenOK label then .error (.enumCharacter piece)
    else if value ∈ seen.map Prod.fst then .error (.enumDuplicate value)
    else .ok (seen ++ [(value, label)])

/-- `parseEnumValues`: the values, each with its label. -/
def parseEnumValues (args : Bytes) : Except FieldError (List (Bytes × Bytes)) :=
  (args.splitOn 44).foldlM parseEnumPiece []

/-- `applyType`. -/
def applyType (jsonName token : Bytes) : Except FieldError Field :=
  let (base, args) := splitTypeArgs token
  match parseCLI base with
  | none => .error (.unknownType token)
  | some (.inr rel) => .error (.relationShape base rel)
  | some (.inl .decimal) =>
    match args with
    | none => .ok { jsonName, kind := .decimal, precision := 19, scale := 4 }
    | some args =>
      (parseDecimalArgs args).map fun p =>
        { jsonName, kind := .decimal, precision := p.1, scale := p.2 }
  | some (.inl .enum) =>
    match args with
    | none => .error (.enumMissing jsonName)
    | some args =>
      (parseEnumValues args).map fun vs =>
        { jsonName, kind := .enum, enumValues := vs.map Prod.fst, enumLabels := vs.map Prod.snd }
  | some (.inl kind) => if args.isSome then .error (.noArguments base) else .ok { jsonName, kind }

/-! ## Numbers -/

/-- `strconv.ParseUint`. -/
def readUint (s : Bytes) : Option ℕ := (parseUint (latin1 s)).filter fun n => n < 2 ^ 64

/-- The spellings of an integer that read back as the same text, within ±(2^53−1). -/
def exactNumberToken (raw : Bytes) : Bool :=
  match readInt raw with
  | none => false
  | some n =>
    (raw = formatInt n || raw = ascii "-0") && -(2 ^ 53 - 1) ≤ n.toInt && n.toInt ≤ 2 ^ 53 - 1

/-- A number without its sign. -/
def unsignedBody (raw : Bytes) : Bytes := if raw.head? = some 45 then raw.tail else raw

/-- The digits before and after the point. -/
def decimalParts (raw : Bytes) : Bytes × Bytes :=
  (cut 46 (unsignedBody raw)).getD (unsignedBody raw, [])

/-- `decimalSpelling`: digits, with or without a sign, and with or without digits after a point. -/
def decimalSpelling (raw : Bytes) : Bool :=
  (decimalParts raw).1 ≠ [] && (decimalParts raw).1.all isDigitByte &&
    (decimalParts raw).2.all isDigitByte &&
    ((cut 46 (unsignedBody raw)).isNone || (decimalParts raw).2 ≠ [])

/-- `decimalFitsColumn`. -/
def decimalFitsColumn (f : Field) (bound : Bound) (raw : Bytes) : Except FieldError Unit :=
  let parts := decimalParts raw
  require (((parts.1.dropWhile (· = 48)).length : ℤ) ≤ f.precision.toInt - f.scale.toInt ∧
    (parts.2.length : ℤ) ≤ f.scale.toInt) (.column f.jsonName bound raw f.precision f.scale)

/-- `checkNumber`. -/
def checkNumber (f : Field) (bound : Bound) (raw : Bytes) : Except FieldError Unit :=
  if f.kind = .unsigned then do
    require ((readUint raw).isSome) (.number f.jsonName bound raw)
    require (exactNumberToken raw) (.inexact f.jsonName bound raw)
  else if f.kind = .decimal then do
    require (decimalSpelling raw) (.number f.jsonName bound raw)
    decimalFitsColumn f bound raw
  else do
    require ((readInt raw).isSome) (.number f.jsonName bound raw)
    require (exactNumberToken raw) (.inexact f.jsonName bound raw)

/-- The value of a number of the field. -/
def numberValue (f : Field) (raw : Bytes) : Option Decimal :=
  if f.kind = .unsigned then (readUint raw).map fun n => ⟨n, 0⟩
  else if f.kind = .decimal then if decimalSpelling raw then some (spelledValue raw) else none
  else (readInt raw).map fun n => ⟨n.toInt, 0⟩

/-- `compareNumbers`. -/
def compareNumbers (f : Field) (a b : Bytes) : Except FieldError Ordering :=
  match numberValue f a with
  | none => .error (.incomparable f.jsonName a)
  | some a =>
    match numberValue f b with
    | none => .error (.incomparable f.jsonName b)
    | some b =>
      .ok (compare (a.coefficient * 10 ^ (-b.exponent).toNat)
        (b.coefficient * 10 ^ (-a.exponent).toNat))

/-! ## Constraints -/

/-- `sqlCheckReserved`. -/
def sqlCheckReserved : List Bytes :=
  ["add", "all", "alter", "and", "as", "asc", "between", "by", "case", "cast", "check", "collate",
    "column", "constraint", "create", "cross", "current_date", "current_time", "current_timestamp",
    "current_user", "default", "delete", "desc", "distinct", "drop", "else", "end", "except", "exists",
    "false", "fetch", "for", "foreign", "from", "full", "grant", "group", "having", "in", "index",
    "inner", "insert", "intersect", "into", "is", "join", "key", "leading", "left", "like", "limit",
    "not", "null", "offset", "on", "or", "order", "outer", "primary", "references", "right", "select",
    "set", "table", "then", "to", "trailing", "true", "union", "unique", "update", "user", "using",
    "values", "when", "where", "window", "with"].map ascii

/-- A check that is made only under a condition. -/
def checkIf (p : Prop) [Decidable p] (check : Except FieldError Unit) : Except FieldError Unit :=
  if p then check else .ok ()

/-- The bounds of a number. -/
def checkBounds (f : Field) : Except FieldError Unit := do
  require f.kind.numeric (.notNumeric f.jsonName f.kind)
  checkIf (f.min ≠ []) (checkNumber f .min f.min)
  checkIf (f.max ≠ []) (checkNumber f .max f.max)
  checkIf (f.min ≠ [] ∧ f.max ≠ []) do
    let order ← compareNumbers f f.min f.max
    require (order ≠ .gt) (.minAboveMax f.jsonName f.min f.max)
  require (f.jsonName ∉ sqlCheckReserved) (.checkReserved f.jsonName)

/-- `defaultInRange`. -/
def defaultInRange (f : Field) : Except FieldError Unit := do
  checkIf (f.min ≠ []) do
    let order ← compareNumbers f f.default f.min
    require (order ≠ .lt) (.defaultBelowMin f.jsonName f.default f.min)
  checkIf (f.max ≠ []) do
    let order ← compareNumbers f f.default f.max
    require (order ≠ .gt) (.defaultAboveMax f.jsonName f.default f.max)

section Library

variable (lib : Library)

/-- The default of a text: its length, its pattern and its format. -/
def checkTextDefault (f : Field) : Except FieldError Unit := do
  require (¬ (0 < f.maxLength ∧ f.maxLength.toInt < ((runes f.default).length : ℤ)))
    (.defaultTooLong f.jsonName)
  checkIf (f.pattern ≠ []) do
    require (lib.compiles f.pattern) (.regexInvalid f.jsonName)
    require (lib.matchString f.pattern f.default) (.badDefault f.jsonName f.default)
  checkIf (f.kind.semanticPattern ≠ [] ∧ f.pattern = []) do
    require (lib.matchString f.kind.semanticPattern f.default) (.badDefault f.jsonName f.default)
  checkIf (f.kind.openAPIFormat ≠ []) do
    require (lib.formatAccepts f.kind.openAPIFormat f.default) (.badDefault f.jsonName f.default)

/-- `checkDefault`. -/
def checkDefault (f : Field) : Except FieldError Unit :=
  match f.kind with
  | .enum => require (f.default ∈ f.enumValues) (.badDefault f.jsonName f.default)
  | .duration =>
    require (lib.formatAccepts (ascii "duration") f.default) (.badDefault f.jsonName f.default)
  | .timeOfDay => require (lib.parseTimeOfDay f.default) (.badDefault f.jsonName f.default)
  | .boolean =>
    require (f.default = ascii "true" ∨ f.default = ascii "false") (.badDefault f.jsonName f.default)
  | .integer | .integer64 | .unsigned | .decimal => do
    checkNumber f .default f.default
    defaultInRange f
  | .string | .text | .email | .url | .slug | .ip => checkTextDefault lib f
  | _ => .error (.noDefault f.jsonName f.kind)

/-- `validateConstraints`. -/
def validateConstraints (f : Field) : Except FieldError Unit := do
  checkIf (f.min ≠ [] ∨ f.max ≠ []) (checkBounds f)
  require (¬ (0 < f.maxLength ∧ ¬ f.kind.takesMaxLength)) (.noMaxLength f.jsonName f.kind)
  require (f.pattern = [] ∨ f.kind = .string ∨ f.kind = .text) (.noRegex f.jsonName f.kind)
  require (∀ b ∈ f.default ++ f.pattern, b ∉ ascii "\x60;\x22") (.quoted f.jsonName)
  checkIf (f.default ≠ []) (checkDefault lib f)

/-! ## Modifiers -/

inductive Flag
  | required | unique | index | nullable | filterable | sortable | searchable | aggregatable
deriving DecidableEq

def Flag.all : List Flag :=
  [.required, .unique, .index, .nullable, .filterable, .sortable, .searchable, .aggregatable]

def Flag.name : Flag → Bytes
  | .required => ascii "required"
  | .unique => ascii "unique"
  | .index => ascii "index"
  | .nullable => ascii "nullable"
  | .filterable => ascii "filterable"
  | .sortable => ascii "sortable"
  | .searchable => ascii "searchable"
  | .aggregatable => ascii "aggregatable"

def Flag.apply (f : Field) : Flag → Field
  | .required => { f with required := true }
  | .unique => { f with unique := true }
  | .index => { f with index := true }
  | .nullable => { f with nullable := true }
  | .filterable => { f with filterable := true }
  | .sortable => { f with sortable := true }
  | .searchable => { f with searchable := true }
  | .aggregatable => { f with aggregatable := true }

inductive Setting
  | default | min | max | maxLength | regex
deriving DecidableEq

def Setting.all : List Setting := [.default, .min, .max, .maxLength, .regex]

def Setting.name : Setting → Bytes
  | .default => ascii "default"
  | .min => ascii "min"
  | .max => ascii "max"
  | .maxLength => ascii "max_length"
  | .regex => ascii "regex"

/-- A setting with its value, which is trimmed. -/
def Setting.apply (f : Field) (val : Bytes) : Setting → Except FieldError Field
  | .default => if val = [] then .error (.defaultMissing f.jsonName) else .ok { f with default := val }
  | .min => .ok { f with min := val }
  | .max => .ok { f with max := val }
  | .maxLength =>
    match readInt val with
    | some n =>
      if 0 < n then .ok { f with maxLength := n } else .error (.maxLength f.jsonName val)
    | none => .error (.maxLength f.jsonName val)
  | .regex =>
    if val = [] then .error (.regexMissing f.jsonName)
    else if ¬ lib.compiles val then .error (.regexInvalid f.jsonName)
    else if ¬ jsUnicodePattern val then .error (.regexNotShared f.jsonName)
    else .ok { f with pattern := val }

/-- A modifier that has no meaning. -/
def modifierError (key mod : Bytes) : FieldError :=
  if key = ascii "references" then .unsupportedModifier mod else .unknownModifier mod

/-- One modifier. -/
def applyModifier (f : Field) (part : Bytes) : Except FieldError Field :=
  let mod := trimSpace part
  if mod = [] then .ok f
  else
    match cut 61 mod with
    | none =>
      match Flag.all.find? fun flag => flag.name = toLower (trimSpace mod) with
      | some flag => .ok (flag.apply f)
      | none => .error (modifierError (toLower (trimSpace mod)) mod)
    | some (key, val) =>
      match Setting.all.find? fun setting => setting.name = toLower (trimSpace key) with
      | some setting => setting.apply lib f (trimSpace val)
      | none => .error (modifierError (toLower (trimSpace key)) mod)

/-- `applyModifiers`. -/
def applyModifiers (f : Field) (raw : Bytes) : Except FieldError Field := do
  let f ← (raw.splitOn 44).foldlM (applyModifier lib) f
  validateConstraints lib f
  require (¬ (f.required ∧ f.nullable)) (.requiredNullable f.jsonName)
  require (¬ (f.filterable ∧ ¬ f.kind.filterable)) (.notFilterable f.jsonName f.kind)
  require (¬ (f.searchable ∧ ¬ f.kind.searchable)) (.notSearchable f.jsonName f.kind)
  require (¬ (f.sortable ∧ ¬ f.kind.sortable)) (.notSortable f.jsonName f.kind)
  require (¬ (f.aggregatable ∧ ¬ f.kind.aggregatable)) (.notAggregatable f.jsonName f.kind)
  return f

end Library

/-! ## Relations -/

/-- `goKeywords`. -/
def goKeywords : List Bytes :=
  ["break", "case", "chan", "const", "continue", "default", "defer", "else", "fallthrough", "for",
    "func", "go", "goto", "if", "import", "interface", "map", "package", "range", "return", "select",
    "struct", "switch", "type", "var"].map ascii

/-- `reservedPackages`. -/
def reservedPackages : List Bytes :=
  ["platform", "cmd", "config", "database", "frontend", "internal", "main", "testdata", "vendor",
    "commands", "web", "product"].map ascii

/-- One modifier of a relation. -/
def applyRelationModifier (r : Relation) (part : Bytes) : Except FieldError Relation :=
  let mod := trimSpace part
  if mod = [] then .ok r
  else
    match cut 61 mod with
    | none =>
      if toLower (trimSpace mod) = ascii "nullable" then .ok { r with nullable := true }
      else .error (.unknownRelationModifier r.jsonName mod)
    | some (key, val) =>
      if toLower (trimSpace key) = ascii "on_delete" then
        if toLower (trimSpace val) = ascii "restrict" then .ok { r with onDelete := ascii "RESTRICT" }
        else if toLower (trimSpace val) = ascii "cascade" then .ok { r with onDelete := ascii "CASCADE" }
        else if toLower (trimSpace val) = ascii "set_null" then
          .ok { r with onDelete := ascii "SET NULL" }
        else .error (.onDelete r.jsonName)
      else .error (.unknownRelationModifier r.jsonName mod)

/-- Whether the foreign key is in the model of the field. -/
def RelationKind.ownsKey (k : RelationKind) : Bool := k ∈ [.belongsTo, .oneToOne]

/-- `applyRelationModifiers`. -/
def applyRelationModifiers (r : Relation) (raw : Bytes) : Except FieldError Relation := do
  require r.kind.ownsKey (.relationModifiers r.kind r.jsonName)
  (raw.splitOn 44).foldlM applyRelationModifier r

/-- `pkLookup`: the Go type of the primary key of a model, empty if it is not known, or an error. -/
abbrev PkLookup := Bytes → Bytes → Option Bytes

/-- The type of the foreign key. -/
def foreignKey (lookup : Option PkLookup) (r : Relation) : Except FieldError Relation :=
  match lookup with
  | none => .ok r
  | some lookup =>
    if r.kind.ownsKey then
      match lookup r.targetPkg r.target with
      | none => .error .lookup
      | some [] => .ok r
      | some goType => .ok { r with fkGoType := goType }
    else .ok r

section Specifications

variable (u : Unicode) (lib : Library) (lookup : Option PkLookup) (resourcePkg : Bytes)

/-- `parseRelationField`. -/
def parseRelationField (name jsonName : Bytes) (kind : RelationKind) (rawTarget : Bytes) :
    Except FieldError Relation := do
  let (target, modRaw) := (cut 44 rawTarget).getD (rawTarget, [])
  let target := trimSpace target
  require (target ≠ []) (.missingTarget name)
  let targetType := toPascal u target
  require (isExportedIdent u targetType) (.invalidTarget target)
  let targetPkg := toSnake u targetType
  require (targetPkg ∉ reservedPackages) (.reservedTarget target targetPkg)
  require (targetPkg ∉ goKeywords) (.keywordTarget target targetPkg)
  let r : Relation :=
    { jsonName, kind, target := targetType, targetPkg, onDelete := ascii "RESTRICT",
      self := targetPkg = resourcePkg, nullable := false, fkGoType := ascii "uint" }
  let r ← if trimSpace modRaw ≠ [] then applyRelationModifiers r modRaw else .ok r
  require (¬ (r.onDelete = ascii "SET NULL" ∧ ¬ r.nullable)) (.setNull kind name)
  require (¬ (r.self ∧ (kind = .hasMany ∨ kind = .manyToMany))) (.selfMany kind name)
  require (¬ (r.self ∧ ¬ r.nullable)) (.selfRequired kind name)
  foreignKey lookup r

/-! ## Specifications -/

/-- `reservedFields`. -/
def reservedFields : List Bytes := ["id", "created_at", "updated_at", "deleted_at"].map ascii

/-- `reservedQueryFields`. -/
def reservedQueryFields : List Bytes :=
  ["page", "per_page", "search", "ordering", "aggregate"].map ascii

/-- The column name of a field. -/
def fieldName (name : Bytes) : Except FieldError Bytes := do
  let jsonName := toSnake u name
  require (jsonName ≠ [] ∧ isExportedIdent u (toPascal u name)) (.invalidName name)
  require (jsonName ∉ reservedFields) (.reservedColumn jsonName)
  require (jsonName ∉ reservedQueryFields) (.reservedQuery jsonName)
  return jsonName

/-- A field of which the specification has a name, a type and perhaps modifiers. -/
def parseParts (spec name typeToken : Bytes) (rest : Option Bytes) : Except FieldError ParsedField := do
  require (name ≠ [] ∧ typeToken ≠ []) (.shape spec)
  let jsonName ← fieldName u name
  match parseCLI typeToken, rest with
  | some (.inr kind), none => .error (.relationShape spec kind)
  | some (.inr kind), some target =>
    (parseRelationField u lookup resourcePkg name jsonName kind target).map .relation
  | _, none => (applyType jsonName typeToken).map .scalar
  | _, some modifiers => do
    let f ← applyType jsonName typeToken
    (applyModifiers lib f modifiers).map .scalar

/-- `parseField`. -/
def parseField (spec : Bytes) : Except FieldError ParsedField :=
  let spec := trimSpace spec
  if spec = [] then .error .emptySpec
  else
    match cut 58 spec with
    | none => .error (.shape spec)
    | some (name, rest) =>
      match cut 58 rest with
      | none => parseParts u lib lookup resourcePkg spec (trimSpace name) (trimSpace rest) none
      | some (typeToken, modifiers) =>
        parseParts u lib lookup resourcePkg spec (trimSpace name) (trimSpace typeToken)
          (some modifiers)

/-- `reservedJSONKeys`. -/
def ParsedField.reservedJSONKeys : ParsedField → List Bytes
  | .scalar f => [f.jsonName]
  | .relation r =>
    if r.kind.ownsKey then [r.jsonName, r.jsonName ++ ascii "_id"] else [r.jsonName]

/-- A key that no field before has. -/
def claimKey (seen : List Bytes) (key : Bytes) : Except FieldError (List Bytes) :=
  let key := lower u key
  if key ∈ seen then .error (.duplicate key) else .ok (key :: seen)

/-- One specification more, after the keys and the fields of those before. -/
def parseNext (acc : List Bytes × List ParsedField) (spec : Bytes) :
    Except FieldError (List Bytes × List ParsedField) := do
  let field ← parseField u lib lookup resourcePkg spec
  let seen ← field.reservedJSONKeys.foldlM (claimKey u) acc.1
  return (seen, acc.2 ++ [field])

/-- `parseFieldsWithID`. -/
def parseFieldsWithID (specs : List Bytes) : Except FieldError (List ParsedField) :=
  (specs.foldlM (parseNext u lib lookup resourcePkg) ([], [])).map Prod.snd

/-- `parseFields`. -/
def parseFields (specs : List Bytes) : Except FieldError (List ParsedField) :=
  parseFieldsWithID u lib none resourcePkg specs

end Specifications

/-! ## What holds of a field that is accepted -/

/-- A text that can stand between quotes in a raw string. -/
structure Quotable (v : Bytes) : Prop where
  quote : 34 ∉ v
  backquote : 96 ∉ v

/-- What is always true of the values that are read: they are trimmed, and enumerations are in order. -/
structure Field.Read (f : Field) : Prop where
  min : Trimmed f.min
  max : Trimmed f.max
  pattern : Trimmed f.pattern
  default : Trimmed f.default
  maxLength : 0 ≤ f.maxLength
  enum : ∀ v ∈ f.enumValues ++ f.enumLabels, IsItem v ∧ Quotable v
  labels : f.enumLabels.length = f.enumValues.length

/-- The bytes of a number that is accepted: digits, signs and points. -/
def isNumberByte (b : UInt8) : Bool := 43 ≤ b && b ≤ 57 && b ≠ 44

/-- A field that is accepted: its constraints can be written, between quotes, and its name is one. -/
structure Field.WellFormed (f : Field) : Prop where
  constraints : f.constraints.WellFormed
  numbers : ∀ b ∈ f.min ++ f.max, isNumberByte b = true
  texts : ∀ v ∈ f.constraints.texts, Quotable v
  name : ∀ x, isForeign x = true → x ∉ f.jsonName

/-! ### Enumerations -/

variable {s : Bytes}

theorem notMem_of_enumTokenOK (h : enumTokenOK s = true) : s ≠ [] ∧ 59 ∉ s ∧ Quotable s := by
  simp only [enumTokenOK, Bool.and_eq_true, decide_eq_true_eq, all_eq_true] at h
  have hnot : ∀ x : UInt8, x < 0x80 → x.toNat ∈ [34, 96, 92, 59, 60, 62, 38, 123, 125, 10, 13] →
      x ∉ s := fun x hx hlist hmem => h.2 _ ((mem_codes hx).2 hmem) hlist
  exact ⟨h.1, hnot 59 (by decide) (by decide),
    hnot 34 (by decide) (by decide), hnot 96 (by decide) (by decide)⟩

theorem isItem_of_enumTokenOK (h : enumTokenOK (trimSpace s) = true) (hcomma : 44 ∉ s) :
    IsItem (trimSpace s) ∧ Quotable (trimSpace s) := by
  obtain ⟨hne, hsemicolon, hquotable⟩ := notMem_of_enumTokenOK h
  exact ⟨⟨⟨hne, trimmed_trimSpace s, hsemicolon⟩, fun hmem => hcomma (mem_of_mem_trimSpace hmem)⟩,
    hquotable⟩

theorem parseEnumPiece_ok {seen out : List (Bytes × Bytes)} {piece : Bytes} (hcomma : 44 ∉ piece)
    (h : parseEnumPiece seen piece = .ok out) :
    ∃ value label, out = seen ++ [(value, label)] ∧ (IsItem value ∧ Quotable value) ∧
      IsItem label ∧ Quotable label := by
  have hpiece : 44 ∉ trimSpace piece := fun hmem => hcomma (mem_of_mem_trimSpace hmem)
  rw [parseEnumPiece] at h
  dsimp only at h
  split at h
  · cases h
  split at h
  · cases h
  split at h
  · cases h
  rename_i hok
  split at h
  · cases h
  cases h
  refine ⟨_, _, rfl, ?_⟩
  simp only [not_or, not_not] at hok
  cases hcut : cut 61 (trimSpace piece) with
  | none =>
    rw [hcut] at hok
    exact ⟨isItem_of_enumTokenOK hok.1 hpiece, isItem_of_enumTokenOK hok.2 hpiece⟩
  | some p =>
    rw [hcut] at hok
    rw [eq_of_cut hcut, mem_append, mem_cons, not_or, not_or] at hpiece
    exact ⟨isItem_of_enumTokenOK hok.1 hpiece.1, isItem_of_enumTokenOK hok.2 hpiece.2.2⟩

theorem foldlM_parseEnumPiece {pieces : List Bytes} (hcomma : ∀ p ∈ pieces, 44 ∉ p)
    {seen out : List (Bytes × Bytes)} (h : pieces.foldlM parseEnumPiece seen = .ok out)
    (hseen : ∀ p ∈ seen, (IsItem p.1 ∧ Quotable p.1) ∧ IsItem p.2 ∧ Quotable p.2) :
    ∀ p ∈ out, (IsItem p.1 ∧ Quotable p.1) ∧ IsItem p.2 ∧ Quotable p.2 := by
  refine foldlM_preserves
    (P := fun seen => ∀ p ∈ seen, (IsItem p.1 ∧ Quotable p.1) ∧ IsItem p.2 ∧ Quotable p.2)
    (fun seen piece hmem out hout hseen p hp => ?_) h hseen
  obtain ⟨value, label, rfl, hvalue, hlabel⟩ := parseEnumPiece_ok (hcomma piece hmem) hout
  rcases mem_append.1 hp with hp | hp
  · exact hseen p hp
  · rw [mem_singleton.1 hp]
    exact ⟨hvalue, hlabel⟩

theorem Field.Read.plain (jsonName : Bytes) (kind : Kind) (precision scale : Int64) :
    Field.Read { jsonName, kind, precision, scale } :=
  ⟨trimmed_nil, trimmed_nil, trimmed_nil, trimmed_nil, Int64.le_refl 0, by simp, rfl⟩

variable {f : Field}

theorem applyType_ok {jsonName token : Bytes} (h : applyType jsonName token = .ok f) :
    f.Read ∧ f.jsonName = jsonName ∧ f.min = [] ∧ f.max = [] ∧ f.pattern = [] ∧ f.default = [] := by
  unfold applyType at h
  dsimp only at h
  split at h
  · cases h
  · cases h
  · split at h
    · cases h
      exact ⟨.plain .., rfl, rfl, rfl, rfl, rfl⟩
    · obtain ⟨p, -, rfl⟩ := ok_of_map h
      exact ⟨.plain .., rfl, rfl, rfl, rfl, rfl⟩
  · split at h
    · cases h
    · rename_i args _
      obtain ⟨vs, hvs, rfl⟩ := ok_of_map h
      have hpairs := foldlM_parseEnumPiece (fun p hp => notMem_of_mem_splitOn hp) hvs (by simp)
      refine ⟨⟨trimmed_nil, trimmed_nil, trimmed_nil, trimmed_nil, Int64.le_refl 0, ?_, by simp⟩,
        rfl, rfl, rfl, rfl, rfl⟩
      intro v hv
      rcases mem_append.1 hv with hv | hv
      · obtain ⟨p, hp, rfl⟩ := mem_map.1 hv
        exact (hpairs p hp).1
      · obtain ⟨p, hp, rfl⟩ := mem_map.1 hv
        exact (hpairs p hp).2
  · split at h
    · cases h
    · cases h
      exact ⟨.plain .., rfl, rfl, rfl, rfl, rfl⟩

/-! ### Modifiers -/

variable {f' : Field} {raw : Bytes} {x : Unit}

section Accepted

variable {lib : Library}

theorem Flag.apply_ok (hf : f.Read) (flag : Flag) :
    (flag.apply f).Read ∧ (flag.apply f).jsonName = f.jsonName := by
  cases flag <;> exact ⟨⟨hf.min, hf.max, hf.pattern, hf.default, hf.maxLength, hf.enum, hf.labels⟩, rfl⟩

theorem Setting.apply_ok (hf : f.Read) {val : Bytes} (hval : Trimmed val) {setting : Setting}
    (h : setting.apply lib f val = .ok f') : f'.Read ∧ f'.jsonName = f.jsonName := by
  cases setting with
  | default =>
    rw [Setting.apply] at h
    split at h
    · cases h
    · cases h
      exact ⟨⟨hf.min, hf.max, hf.pattern, hval, hf.maxLength, hf.enum, hf.labels⟩, rfl⟩
  | min =>
    cases h
    exact ⟨⟨hval, hf.max, hf.pattern, hf.default, hf.maxLength, hf.enum, hf.labels⟩, rfl⟩
  | max =>
    cases h
    exact ⟨⟨hf.min, hval, hf.pattern, hf.default, hf.maxLength, hf.enum, hf.labels⟩, rfl⟩
  | maxLength =>
    rw [Setting.apply] at h
    split at h
    · split at h
      · rename_i hpos
        cases h
        exact ⟨⟨hf.min, hf.max, hf.pattern, hf.default, Int64.le_of_lt hpos, hf.enum, hf.labels⟩, rfl⟩
      · cases h
    · cases h
  | regex =>
    rw [Setting.apply] at h
    split at h
    · cases h
    split at h
    · cases h
    split at h
    · cases h
    · cases h
      exact ⟨⟨hf.min, hf.max, hval, hf.default, hf.maxLength, hf.enum, hf.labels⟩, rfl⟩

theorem applyModifier_ok (hf : f.Read) {part : Bytes} (h : applyModifier lib f part = .ok f') :
    f'.Read ∧ f'.jsonName = f.jsonName := by
  unfold applyModifier at h
  dsimp only at h
  split at h
  · cases h
    exact ⟨hf, rfl⟩
  split at h
  · split at h
    · cases h
      exact Flag.apply_ok hf _
    · cases h
  · split at h
    · exact Setting.apply_ok hf (trimmed_trimSpace _) h
    · cases h

theorem foldlM_applyModifier {parts : List Bytes} (hf : f.Read)
    (h : parts.foldlM (applyModifier lib) f = .ok f') : f'.Read ∧ f'.jsonName = f.jsonName := by
  refine foldlM_preserves (P := fun g => g.Read ∧ g.jsonName = f.jsonName) ?_ h ⟨hf, rfl⟩
  intro g part _ g' hpart ⟨hg, hname⟩
  obtain ⟨hg', hname'⟩ := applyModifier_ok hg hpart
  exact ⟨hg', hname'.trans hname⟩

/-! ### Numbers -/

theorem isNumberByte_of_exactNumberToken (h : exactNumberToken raw = true) :
    ∀ b ∈ raw, isNumberByte b = true := by
  intro b hb
  rw [exactNumberToken] at h
  split at h
  · cases h
  · rename_i n hn
    obtain ⟨hle, hge, hne⟩ := mem_of_readInt hn hb
    simp [isNumberByte, hle, hge, hne]

theorem isNumberByte_of_digit {b : UInt8} (h : isDigitByte b = true) : isNumberByte b = true := by
  simp only [isDigitByte, Bool.and_eq_true, decide_eq_true_eq] at h
  have hle : (43 : UInt8) ≤ b := UInt8.le_trans (by decide) h.1
  have hne : b ≠ 44 := by
    rintro rfl
    exact absurd h.1 (by decide)
  simp [isNumberByte, hle, h.2, hne]

theorem isNumberByte_of_decimalSpelling (h : decimalSpelling raw = true) :
    ∀ b ∈ raw, isNumberByte b = true := by
  simp only [decimalSpelling, Bool.and_eq_true, all_eq_true] at h
  obtain ⟨⟨⟨-, hwhole⟩, hfrac⟩, -⟩ := h
  have hbody : ∀ b ∈ unsignedBody raw, isNumberByte b = true := by
    intro b hb
    rw [decimalParts] at hwhole hfrac
    cases hcut : cut 46 (unsignedBody raw) with
    | none =>
      rw [hcut] at hwhole
      exact isNumberByte_of_digit (hwhole b hb)
    | some p =>
      rw [hcut] at hwhole hfrac
      rw [eq_of_cut hcut, mem_append, mem_cons] at hb
      rcases hb with hb | rfl | hb
      · exact isNumberByte_of_digit (hwhole b hb)
      · decide
      · exact isNumberByte_of_digit (hfrac b hb)
  intro b hb
  rw [unsignedBody] at hbody
  split at hbody
  · rename_i hsign
    obtain ⟨rest, rfl⟩ := List.head?_eq_some_iff.1 hsign
    rcases mem_cons.1 hb with rfl | hb
    · decide
    · exact hbody b hb
  · exact hbody b hb

theorem checkNumber_ok {bound : Bound} (h : checkNumber f bound raw = .ok x) :
    ∀ b ∈ raw, isNumberByte b = true := by
  rw [checkNumber] at h
  split at h
  · obtain ⟨_, -, hexact⟩ := ok_of_bind h
    exact isNumberByte_of_exactNumberToken (of_require hexact)
  split at h
  · obtain ⟨_, hspelling, -⟩ := ok_of_bind h
    exact isNumberByte_of_decimalSpelling (of_require hspelling)
  · obtain ⟨_, -, hexact⟩ := ok_of_bind h
    exact isNumberByte_of_exactNumberToken (of_require hexact)

theorem checkIf_ok {p : Prop} [Decidable p] {check : Except FieldError Unit}
    (h : checkIf p check = .ok x) (hp : p) : check = .ok x := by
  rwa [checkIf, if_pos hp] at h

theorem checkBounds_ok (h : checkBounds f = .ok x) :
    (f.min ≠ [] → ∀ b ∈ f.min, isNumberByte b = true) ∧
      (f.max ≠ [] → ∀ b ∈ f.max, isNumberByte b = true) := by
  obtain ⟨_, -, h⟩ := ok_of_bind h
  obtain ⟨_, hmin, h⟩ := ok_of_bind h
  obtain ⟨_, hmax, -⟩ := ok_of_bind h
  exact ⟨fun hne => checkNumber_ok (checkIf_ok hmin hne), fun hne => checkNumber_ok (checkIf_ok hmax hne)⟩

/-- What the constraints of a field have to be. -/
theorem validateConstraints_ok (h : validateConstraints lib f = .ok x) :
    (∀ b ∈ f.min ++ f.max, isNumberByte b = true) ∧
      ∀ b ∈ f.default ++ f.pattern, b ≠ 96 ∧ b ≠ 59 ∧ b ≠ 34 := by
  obtain ⟨_, hbounds, h⟩ := ok_of_bind h
  obtain ⟨_, -, h⟩ := ok_of_bind h
  obtain ⟨_, -, h⟩ := ok_of_bind h
  obtain ⟨_, hquoted, -⟩ := ok_of_bind h
  constructor
  · intro b hb
    rcases mem_append.1 hb with hb | hb
    · have hne := ne_nil_of_mem hb
      exact (checkBounds_ok (checkIf_ok hbounds (.inl hne))).1 hne b hb
    · have hne := ne_nil_of_mem hb
      exact (checkBounds_ok (checkIf_ok hbounds (.inr hne))).2 hne b hb
  · intro b hb
    have hnot := of_require hquoted b hb
    refine ⟨?_, ?_, ?_⟩ <;> rintro rfl <;> exact hnot (by decide)

theorem notMem_of_isNumberByte (h : ∀ b ∈ s, isNumberByte b = true) : 59 ∉ s ∧ Quotable s :=
  ⟨fun hmem => absurd (h 59 hmem) (by decide), fun hmem => absurd (h 34 hmem) (by decide),
    fun hmem => absurd (h 96 hmem) (by decide)⟩

/-- **A field whose values are read and whose constraints are valid is well formed.** -/
theorem Field.Read.wellFormed (hf : f.Read)
    (hnumbers : ∀ b ∈ f.min ++ f.max, isNumberByte b = true)
    (htexts : ∀ b ∈ f.default ++ f.pattern, b ≠ 96 ∧ b ≠ 59 ∧ b ≠ 34)
    (hname : ∀ x, isForeign x = true → x ∉ f.jsonName) : f.WellFormed := by
  have hmin := notMem_of_isNumberByte fun b hb => hnumbers b (mem_append_left _ hb)
  have hmax := notMem_of_isNumberByte fun b hb => hnumbers b (mem_append_right _ hb)
  have htext : ∀ {v : Bytes}, (∀ b ∈ v, b ≠ 96 ∧ b ≠ 59 ∧ b ≠ 34) → 59 ∉ v ∧ Quotable v := by
    intro v hv
    exact ⟨fun hmem => (hv 59 hmem).2.1 rfl, fun hmem => (hv 34 hmem).2.2 rfl,
      fun hmem => (hv 96 hmem).1 rfl⟩
  have hdefault := htext fun b hb => htexts b (mem_append_left _ hb)
  have hpattern := htext fun b hb => htexts b (mem_append_right _ hb)
  refine ⟨⟨?_, ?_, hf.maxLength, ?_, ?_, ?_, ?_, hf.labels⟩, hnumbers, ?_, hname⟩
  · exact fun hne => ⟨hne, hf.min, hmin.1⟩
  · exact fun hne => ⟨hne, hf.max, hmax.1⟩
  · exact fun hne => ⟨hne, hf.pattern, hpattern.1⟩
  · exact fun hne => ⟨hne, hf.default, hdefault.1⟩
  · exact fun v hv => (hf.enum v (mem_append_left _ hv)).1
  · exact fun v hv => (hf.enum v (mem_append_right _ hv)).1
  · intro v hv
    simp only [Constraints.texts, Field.constraints, cons_append, nil_append,
      mem_cons] at hv
    rcases hv with rfl | rfl | rfl | rfl | hv
    · exact hmin.2
    · exact hmax.2
    · exact hpattern.2
    · exact hdefault.2
    · exact (hf.enum v hv).2

/-! ### Specifications -/

variable {u : Unicode} {lookup : Option PkLookup} {resourcePkg : Bytes}

theorem fieldName_ok {name jsonName : Bytes} (h : fieldName u name = .ok jsonName) :
    ∀ x, isForeign x = true → x ∉ jsonName := by
  obtain ⟨_, hident, h⟩ := ok_of_bind h
  obtain ⟨_, -, h⟩ := ok_of_bind h
  obtain ⟨_, -, h⟩ := ok_of_bind h
  cases h
  exact fun x hx => notMem_toSnake hx (of_require hident).2

theorem applyModifiers_ok (hf : f.Read) (h : applyModifiers lib f raw = .ok f')
    (hname : ∀ x, isForeign x = true → x ∉ f.jsonName) : f'.WellFormed := by
  obtain ⟨f₁, hfold, h⟩ := ok_of_bind h
  obtain ⟨_, hvalid, h⟩ := ok_of_bind h
  obtain ⟨_, -, h⟩ := ok_of_bind h
  obtain ⟨_, -, h⟩ := ok_of_bind h
  obtain ⟨_, -, h⟩ := ok_of_bind h
  obtain ⟨_, -, h⟩ := ok_of_bind h
  obtain ⟨_, -, h⟩ := ok_of_bind h
  cases h
  obtain ⟨hread, hsame⟩ := foldlM_applyModifier hf hfold
  obtain ⟨hnumbers, htexts⟩ := validateConstraints_ok hvalid
  exact hread.wellFormed hnumbers htexts (hsame ▸ hname)

theorem parseParts_wellFormed {spec name typeToken : Bytes} {rest : Option Bytes}
    (h : parseParts u lib lookup resourcePkg spec name typeToken rest = .ok (.scalar f)) :
    f.WellFormed := by
  obtain ⟨_, -, h⟩ := ok_of_bind h
  obtain ⟨jsonName, hname, h⟩ := ok_of_bind h
  have hforeign := fieldName_ok hname
  split at h
  · cases h
  · obtain ⟨r, -, hr⟩ := ok_of_map h
    cases hr
  · obtain ⟨f₁, hf₁, heq⟩ := ok_of_map h
    cases heq
    obtain ⟨hread, rfl, hmin, hmax, hpattern, hdefault⟩ := applyType_ok hf₁
    refine hread.wellFormed ?_ ?_ hforeign
    · rw [hmin, hmax]
      simp
    · rw [hpattern, hdefault]
      simp
  · obtain ⟨f₁, hf₁, h⟩ := ok_of_bind h
    obtain ⟨f₂, hf₂, heq⟩ := ok_of_map h
    cases heq
    obtain ⟨hread, rfl, -⟩ := applyType_ok hf₁
    exact applyModifiers_ok hread hf₂ hforeign

theorem parseField_wellFormed {spec : Bytes}
    (h : parseField u lib lookup resourcePkg spec = .ok (.scalar f)) : f.WellFormed := by
  unfold parseField at h
  dsimp only at h
  split at h
  · cases h
  split at h
  · cases h
  split at h
  · exact parseParts_wellFormed h
  · exact parseParts_wellFormed h

theorem foldlM_parseNext {specs : List Bytes} {acc acc' : List Bytes × List ParsedField}
    (h : specs.foldlM (parseNext u lib lookup resourcePkg) acc = .ok acc')
    (hacc : ∀ f, .scalar f ∈ acc.2 → f.WellFormed) : ∀ f, .scalar f ∈ acc'.2 → f.WellFormed := by
  refine foldlM_preserves (P := fun acc => ∀ f, .scalar f ∈ acc.2 → f.WellFormed)
    (fun acc spec _ acc' hnext hacc f hf => ?_) h hacc
  obtain ⟨field, hfield, hnext⟩ := ok_of_bind hnext
  obtain ⟨seen, -, hnext⟩ := ok_of_bind hnext
  cases hnext
  rcases mem_append.1 hf with hf | hf
  · exact hacc f hf
  · rw [mem_singleton] at hf
    exact parseField_wellFormed (hf ▸ hfield)

/-- **Every scalar field that is accepted is well formed.** -/
theorem parseFields_wellFormed {specs : List Bytes} {fields : List ParsedField}
    (h : parseFieldsWithID u lib lookup resourcePkg specs = .ok fields) (hf : .scalar f ∈ fields) :
    f.WellFormed := by
  obtain ⟨acc, hfold, rfl⟩ := ok_of_map h
  exact foldlM_parseNext hfold (by simp) f hf

end Accepted

end Gombit.Resources
