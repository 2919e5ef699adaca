import Mathlib.Data.Rat.Defs
import Mathlib.Algebra.Order.Field.Rat

/-!
# Edits of a stored row

`database.ScopeEdit` (`database/edit.go`) narrows the update of a whole row to the columns whose value
differs from the one the row had when it was loaded. This module has the column values, the comparison
it uses, and the columns it selects.

* `valuesEqual`: the comparison. A value equals itself (`valuesEqual_refl`), a NaN too.
* `mem_narrowToChanged_iff`: the columns an edit selects.
-/

namespace Gombit.Database

/-! ## Values -/

/-- A `float64` as the comparison sees it. -/
inductive Float64
  | nan
  | negZero
  | finite (q : ℚ)
  | infinite (negative : Bool)
  deriving DecidableEq

/-- `x == y || (math.IsNaN(x) && math.IsNaN(y))`. -/
def Float64.equal : Float64 → Float64 → Bool
  | .negZero, .finite q => decide (q = 0)
  | .finite q, .negZero => decide (q = 0)
  | x, y => decide (x = y)

/-- The value of a column: a nil pointer, a value of a basic type, a `time.Time`, a decimal, or a struct
of exported fields. A pointer to a value is the value. -/
inductive Value
  | null
  | bool (b : Bool)
  | int (n : ℤ)
  | float (x : Float64)
  | text (s : String)
  | bytes (b : List UInt8)
  | time (instant : ℤ) (location : String)
  | decimal (coefficient exponent : ℤ)
  | struct (fields : List Value)

mutual

/-- `valuesEqual`: times and decimals have an `Equal` method. -/
def valuesEqual : Value → Value → Bool
  | .null, .null => true
  | .bool a, .bool b => decide (a = b)
  | .int a, .int b => decide (a = b)
  | .float a, .float b => a.equal b
  | .text a, .text b => decide (a = b)
  | .bytes a, .bytes b => decide (a = b)
  | .time a _, .time b _ => decide (a = b)
  | .decimal c e, .decimal c' e' => decide ((c : ℚ) * 10 ^ e = (c' : ℚ) * 10 ^ e')
  | .struct as, .struct bs => fieldsEqual as bs
  | _, _ => false

/-- The fields of two structs of one type. -/
def fieldsEqual : List Value → List Value → Bool
  | [], [] => true
  | a :: as, b :: bs => valuesEqual a b && fieldsEqual as bs
  | _, _ => false

end

theorem Float64.equal_refl (x : Float64) : x.equal x = true := by
  cases x <;> simp [equal]

mutual

theorem valuesEqual_refl : ∀ a : Value, valuesEqual a a = true
  | .null => rfl
  | .bool _ => by simp [valuesEqual]
  | .int _ => by simp [valuesEqual]
  | .float x => by simp [valuesEqual, x.equal_refl]
  | .text _ => by simp [valuesEqual]
  | .bytes _ => by simp [valuesEqual]
  | .time _ _ => by simp [valuesEqual]
  | .decimal _ _ => by simp [valuesEqual]
  | .struct fields => by simp [valuesEqual, fieldsEqual_refl fields]

theorem fieldsEqual_refl : ∀ as : List Value, fieldsEqual as as = true
  | [] => rfl
  | a :: as => by simp [fieldsEqual, valuesEqual_refl a, fieldsEqual_refl as]

end

/-! ## Rows -/

/-- A row, by column. -/
abbrev Row := String → Value

/-- A column of the schema. One that is not updatable is never part of an update. -/
structure Column where
  name : String
  updatable : Bool
  /-- The model's field is of an interface type. -/
  interface : Bool

/-- The columns of a table, with those of its primary key. -/
structure Schema where
  columns : List Column
  primary : List String

/-- `unchanged`: a value is the one the row had. In a field of an interface type it never is: the
snapshot is of the type the interface holds, and `valuesEqual` compares the types first. -/
def Column.unchanged (c : Column) (value stored : Value) : Bool :=
  !c.interface && valuesEqual value stored

/-- `narrowToChanged`: the columns an edit of a row selects, by the values the row had when it was
loaded. An edit that changes nothing selects the primary key. -/
def Schema.narrowToChanged (schema : Schema) (stored row : Row) : List String :=
  let changed := (schema.columns.filter fun c =>
    c.updatable && !c.unchanged (row c.name) (stored c.name)).map Column.name
  if changed = [] then schema.primary else changed

/-- An edit selects the column for the value it has, over the one the row had. -/
def Schema.Changes (schema : Schema) (column : String) (value stored : Value) : Prop :=
  ∃ c ∈ schema.columns, c.name = column ∧ c.updatable = true ∧ c.unchanged value stored = false

theorem mem_narrowToChanged_iff {schema : Schema} {stored row : Row} {column : String} :
    column ∈ schema.narrowToChanged stored row ↔
      schema.Changes column (row column) (stored column) ∨
        column ∈ schema.primary ∧ ∀ other, ¬schema.Changes other (row other) (stored other) := by
  have hmem : ∀ column, column ∈ (schema.columns.filter fun c =>
      c.updatable && !c.unchanged (row c.name) (stored c.name)).map Column.name ↔
        schema.Changes column (row column) (stored column) := by
    intro column
    simp only [Schema.Changes, List.mem_map, List.mem_filter, Bool.and_eq_true, Bool.not_eq_true']
    constructor
    · rintro ⟨c, ⟨hc, hup, hne⟩, rfl⟩
      exact ⟨c, hc, rfl, hup, hne⟩
    · rintro ⟨c, hc, rfl, hup, hne⟩
      exact ⟨c, ⟨hc, hup, hne⟩, rfl⟩
  unfold Schema.narrowToChanged
  dsimp only
  split
  · rename_i hnil
    have hnone : ∀ other, ¬schema.Changes other (row other) (stored other) := by
      intro other hother
      rw [← hmem, hnil] at hother
      cases hother
    simp only [hnone, false_or, not_false_iff, implies_true, and_true]
  · rename_i hne
    obtain ⟨other, hother⟩ := List.exists_mem_of_ne_nil _ hne
    rw [hmem]
    constructor
    · exact .inl
    · rintro (h | ⟨-, hnone⟩)
      · exact h
      · exact absurd ((hmem other).1 hother) (hnone other)

end Gombit.Database
