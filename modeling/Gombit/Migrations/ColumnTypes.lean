import Mathlib.Data.Nat.Notation
import Mathlib.Data.Int.Notation

/-!
# Column types

The types of columns as the schema library reads them, and what `migrations/schemaplan` says about
a change from one to another: `typeDirection`, with the functions it compares sizes by.

A size, precision or scale of zero is one that the type does not declare.
-/

namespace Gombit.Migrations

/-- `config.DatabaseDriver`. -/
inductive DatabaseDriver
  | sqlite
  | mysql
  | postgres
  deriving DecidableEq

/-- `schema.Type`, with the fields that are read here. -/
inductive ColumnType
  /-- `schema.IntegerType`. -/
  | integer (t : String) (unsigned : Bool)
  /-- `schema.DecimalType`. -/
  | decimal (precision : ℕ) (scale : ℤ) (unsigned : Bool)
  /-- `schema.StringType`. -/
  | string (t : String) (size : ℕ)
  /-- `schema.FloatType`. -/
  | float (t : String) (precision : ℕ)
  /-- `schema.TimeType`. -/
  | time (t : String) (precision : Option ℕ)
  /-- `schema.BoolType`. -/
  | bool
  /-- `schema.UUIDType`. -/
  | uuid
  /-- Any other type. -/
  | other
  deriving DecidableEq

/-- `typeDir`. -/
inductive TypeDir
  | unknown
  | widen
  | narrow
  deriving DecidableEq

/-- `widenIf`. -/
def widenIf (ok : Bool) : TypeDir := if ok then .widen else .narrow

/-! ## Numbers -/

/-- `intBytes`. -/
def intBytes (driver : DatabaseDriver) (t : String) : ℕ :=
  match t.toLower with
  | "tinyint" => 1
  | "smallint" => 2
  | "int2" => 2
  | "mediumint" => 3
  | "int" => 4
  | "int4" => 4
  -- an INTEGER of SQLite stores up to 8 bytes
  | "integer" => if driver = .sqlite then 8 else 4
  | "bigint" => 8
  | "int8" => 8
  | _ => 0

/-- `intDigits`. -/
def intDigits (driver : DatabaseDriver) (t : String) : ℤ :=
  match intBytes driver t with
  | 1 => 3
  | 2 => 5
  | 3 => 8
  | 4 => 10
  | _ => 20

/-- `floatBytes`. -/
def floatBytes (driver : DatabaseDriver) (t : String) (precision : ℕ) : ℕ :=
  match driver with
  | .mysql =>
    match t.toLower with
    | "float" => if 24 ≤ precision then 8 else 4
    | "double" => 8
    | "double precision" => 8
    | "real" => 8
    | _ => 0
  | .sqlite => 8
  | .postgres =>
    match t.toLower with
    | "real" => 4
    | "float4" => 4
    | "double precision" => 8
    | "float8" => 8
    | "float" => if 0 < precision ∧ precision ≤ 24 then 4 else 8
    | _ => 0

/-! ## Strings -/

/-- `textRank`. -/
def textRank (t : String) : ℕ :=
  match t.toLower with
  | "tinytext" => 1
  | "text" => 2
  | "clob" => 2
  | "mediumtext" => 3
  | "longtext" => 4
  | _ => 0

/-- `stringCap`: what a string type holds, in characters or in bytes. -/
structure StringCap where
  chars : ℕ
  bytes : ℕ
  unbounded : Bool
  deriving DecidableEq

/-- `maxBytesPerChar`. -/
def maxBytesPerChar : ℕ := 4

/-- The byte caps of MySQL's text types. -/
def mysqlTextBytes (t : String) : Option ℕ :=
  match t.toLower with
  | "tinytext" => some 255
  | "text" => some 65535
  | "mediumtext" => some 16777215
  | "longtext" => some 4294967295
  | _ => none

/-- `stringCapacity`. -/
def stringCapacity (driver : DatabaseDriver) (t : String) (size : ℕ) : StringCap :=
  match if driver = .mysql then mysqlTextBytes t else none with
  | some bytes => ⟨0, bytes, false⟩
  | none => if 0 < size then ⟨size, 0, false⟩ else ⟨0, 0, true⟩

/-- `stringFits`. -/
def stringFits (from_ to_ : StringCap) : Bool :=
  if to_.unbounded then true
  else if from_.unbounded then false
  else if 0 < from_.chars ∧ 0 < to_.chars then decide (from_.chars ≤ to_.chars)
  else if 0 < from_.bytes ∧ 0 < to_.bytes then decide (from_.bytes ≤ to_.bytes)
  -- characters into a byte cap: the widest encoding
  else if 0 < from_.chars then decide (from_.chars * maxBytesPerChar ≤ to_.bytes)
  -- a byte cap into characters: a character is at least one byte
  else decide (from_.bytes ≤ to_.chars)

/-! ## The direction of a change -/

/-- The last case of `typeDirection`: a type that renders as unbounded text. -/
def rendersAsText : ColumnType → ColumnType → TypeDir
  | .bool, .string t size | .time _ _, .string t size | .float _ _, .string t size
  | .uuid, .string t size =>
    if size = 0 ∧ textRank "text" ≤ textRank t then .widen else .unknown
  | _, _ => .unknown

/-- `typeDirection`. -/
def typeDirection (driver : DatabaseDriver) : ColumnType → ColumnType → TypeDir
  | .integer f fUnsigned, .integer t tUnsigned =>
    if fUnsigned ≠ tUnsigned then .unknown
    else if intBytes driver f = 0 ∨ intBytes driver t = 0 then .unknown
    else widenIf (decide (intBytes driver f ≤ intBytes driver t))
  | .integer f _, .decimal precision scale _ =>
    if precision = 0 then .widen else widenIf (decide (intDigits driver f ≤ precision - scale))
  | .integer _ _, .string _ size => widenIf (decide (size = 0) || decide (20 ≤ size))
  | .string f fSize, .string t tSize =>
    widenIf (stringFits (stringCapacity driver f fSize) (stringCapacity driver t tSize))
  | .decimal fPrecision fScale _, .decimal tPrecision tScale _ =>
    if tPrecision = 0 then .widen
    else if fPrecision = 0 then .narrow
    else widenIf (decide ((fPrecision : ℤ) - fScale ≤ tPrecision - tScale) && decide (fScale ≤ tScale))
  | .decimal _ _ _, .string _ size => if size = 0 then .widen else .unknown
  | .float f fPrecision, .float t tPrecision =>
    if floatBytes driver f fPrecision = 0 ∨ floatBytes driver t tPrecision = 0 then .unknown
    else widenIf (decide (floatBytes driver f fPrecision ≤ floatBytes driver t tPrecision))
  | .time f fPrecision, .time t tPrecision =>
    if f.toLower = t.toLower then widenIf (decide (fPrecision.getD 0 ≤ tPrecision.getD 0))
    else .unknown
  | from_, to_ => rendersAsText from_ to_

end Gombit.Migrations
