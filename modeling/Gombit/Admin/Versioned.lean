import Gombit.Database.Edit
import Gombit.Foundations.Decimal
import Gombit.Foundations.Run
import Mathlib.Data.List.Nodup
import Mathlib.Logic.Function.Basic

/-!
# Optimistic locking in the admin

A PATCH of a model with a version column (`updateVersioned` in `admin/resources.go`) loads the row,
applies the request to it (`applyWrite`), and updates the row where it still has the expected version:
the one in the request, or else the one it has loaded. The update sets the columns that differ from the
loaded row (`database.ScopeEdit`) and the next version.

* `applyWrite_spec`: what a request does to the row it has loaded, column by column (`given`).
* `LosesNoUpdate`: a PATCH that succeeds leaves the row as it stood at the version it expected, with the
  values it gives, and the next version; there is one row for each version.
* `losesNoUpdate_iff`: exactly when that holds of all PATCHes of a run, in any interleaving.
* `named_value_dropped`: it fails when the expected version is not the loaded one. The row a PATCH is
  compared with is then not the row it updates, and a value that equals the loaded one is not written
  over a newer one.
-/

namespace Gombit.Admin

open Database List

/-! ## The model -/

/-- A value of the request's JSON body. -/
inductive Raw
  | null
  | text (s : String)
  | number (q : ℚ)
  /-- An object whose `key` is a string. -/
  | file (key : String)
  | other (json : String)
  deriving DecidableEq

/-- The kinds of fields the write path tells apart. -/
inductive FieldType
  | string
  | text
  | file
  | image
  /-- A relation of kind has_many. -/
  | hasMany
  | other
  deriving DecidableEq

/-- A `resolvedField`, as far as a PATCH reads it. -/
structure Field where
  name : String
  column : String
  type : FieldType
  readOnly : Bool
  writeOnly : Bool
  required : Bool
  /-- The blank is null in this column: `blankToNull`. -/
  blankToNull : Bool
  /-- `coerceType` is `TypeInteger`. -/
  integer : Bool
  deriving DecidableEq

def Field.isFile (f : Field) : Bool := f.type = .file ∨ f.type = .image

/-- What the write path takes from elsewhere: the checks of a value, its conversion and how it is
printed, and `strconv.ParseInt` of base 10 and 64 bits. -/
structure Library where
  constraintMessage : Field → Raw → String
  coerceValue : Field → Raw → Except String Value
  set : Field → Raw → Except String Value
  sprint : Value → String
  textProblem : String → String
  parseInt : String → Option ℤ

/-- The type of the version column. -/
structure IntKind where
  signed : Bool
  bits : ℕ
  bits_pos : 0 < bits
  bits_le : bits ≤ 64

/-- The name of the version column. -/
def versionColumn : String := "version"

/-- A registered model with a version column. -/
structure Registered where
  schema : Schema
  fields : List Field
  /-- The name of the primary key's field. -/
  pk : String
  /-- The name of the version in a request. -/
  versionName : String
  version : IntKind
  omitOnUpdate : List String
  /-- The database counts the rows an update changes, not those it matches. -/
  countsChanged : Bool
  names_nodup : (fields.map Field.name).Nodup
  columns_nodup : (fields.map Field.column).Nodup
  versioned : ∃ c ∈ schema.columns, c.name = versionColumn ∧ c.updatable = true
  version_integer : ∀ c ∈ schema.columns, c.name = versionColumn → c.interface = false
  version_field : ∀ f ∈ fields, f.column = versionColumn → f.isFile = false
  version_omitted : versionColumn ∉ omitOnUpdate
  version_primary : versionColumn ∉ schema.primary

/-- A request's body: a map from names to values. -/
structure Body where
  entries : List (String × Raw)
  nodup : (entries.map Prod.fst).Nodup

/-! ## Integers -/

namespace IntKind

/-- Two's complement in `bits` bits. -/
def wrap (bits : ℕ) (n : ℤ) : ℤ := (n + 2 ^ (bits - 1)) % 2 ^ bits - 2 ^ (bits - 1)

/-- The integers of the type. -/
def Holds (k : IntKind) (n : ℤ) : Prop :=
  if k.signed then -2 ^ (k.bits - 1) ≤ n ∧ n < 2 ^ (k.bits - 1) else 0 ≤ n ∧ n < 2 ^ k.bits

/-- `reflectVersionInt`. -/
def get (_ : IntKind) (n : ℤ) : ℤ := if 2 ^ 63 - 1 < n then 2 ^ 63 - 1 else n

/-- `reflectSetVersionInt`: a negative value is not stored in an unsigned field. -/
def set (k : IntKind) (current n : ℤ) : ℤ :=
  if k.signed then wrap k.bits n else if 0 ≤ n then n % 2 ^ k.bits else current

/-- The next version is one the column holds, and an `int64`. -/
def Fits (k : IntKind) (n : ℤ) : Prop := k.Holds (n + 1) ∧ n + 1 < 2 ^ 63

end IntKind

/-! ## A PATCH -/

/-- `maxExactJSONInt`. -/
def maxExactJSONInt : ℤ := 2 ^ 53 - 1

/-- `asInt64`, of the values a JSON body has. -/
def asInt64 (lib : Library) : Raw → Option ℤ
  | .number q => if q.den = 1 ∧ |q.num| ≤ maxExactJSONInt then some q.num else none
  | .text s => (lib.parseInt s).filter fun n => decide (-2 ^ 63 ≤ n ∧ n < 2 ^ 63)
  | _ => none

/-- `blankRaw`. -/
def blankRaw (raw : Raw) : Bool := raw = .null ∨ raw = .text ""

/-- `blankFileToNil`. -/
def blankFileToNil : Raw → Raw
  | .file "" => .null
  | .text "" => .null
  | raw => raw

/-- `sameAsStored`. -/
def sameAsStored (lib : Library) (f : Field) (stored : Value) (raw : Raw) : Except String Bool :=
  (lib.coerceValue f raw).map fun v => decide (lib.sprint stored = lib.sprint v)

/-- `unchangedRoundedInteger`. -/
def unchangedRoundedInteger (f : Field) (stored : Value) (raw : Raw) : Bool :=
  match raw, stored with
  | .number q, .int n =>
    f.integer && decide ((maxExactJSONInt : ℚ) < |q|) && decide ((onAbs toDouble n : ℚ) = q)
  | _, _ => false

/-- `writtenTextProblem` of an update. -/
def writtenTextProblem (lib : Library) (f : Field) (stored : Value) (raw : Raw) : String :=
  match raw with
  | .text s =>
    if f.type ≠ .string ∧ f.type ≠ .text then ""
    else
      let msg := lib.textProblem s
      if msg = "" then ""
      else match sameAsStored lib f stored raw with
        | .ok true => ""
        | _ => msg
  | _ => ""

/-- One field of the body of a PATCH in `applyWrite`, for a column that stores `stored`: refused, left as
it is (`none`), or set. -/
def writeField (lib : Library) (pk : String) (f : Field) (stored : Value) (raw : Raw) :
    Except String (Option Value) :=
  if f.readOnly ∨ f.type = .hasMany then .error "field is read-only"
  else if pk ≠ "" ∧ f.name = pk then
    match sameAsStored lib f stored raw with
    | .error msg => .error msg
    | .ok same => if same then .ok none else .error "cannot be changed"
  else
    let raw := if f.isFile then blankFileToNil raw else raw
    if f.writeOnly ∧ blankRaw raw then .ok none
    else
      let raw := if raw = .text "" ∧ ¬f.required ∧ f.blankToNull then .null else raw
      if raw = .null ∧ f.required then .error "is required"
      -- The form sends the stored value back.
      else if unchangedRoundedInteger f stored raw then .ok (some stored)
      else if lib.constraintMessage f raw ≠ "" then .error (lib.constraintMessage f raw)
      else if writtenTextProblem lib f stored raw ≠ "" then
        .error (writtenTextProblem lib f stored raw)
      else (lib.set f raw).map some

def Registered.field (m : Registered) (name : String) : Option Field :=
  m.fields.find? fun f => decide (f.name = name)

/-- One iteration of `applyWrite`: the row so far, and the fields refused so far. -/
def applyEntry (lib : Library) (m : Registered) (acc : Row × List (String × String))
    (entry : String × Raw) : Row × List (String × String) :=
  match m.field entry.1 with
  | none => (acc.1, acc.2 ++ [(entry.1, "unknown field")])
  | some f =>
    match writeField lib m.pk f (acc.1 f.column) entry.2 with
    | .error msg => (acc.1, acc.2 ++ [(entry.1, msg)])
    | .ok none => acc
    | .ok (some v) => (Function.update acc.1 f.column v, acc.2)

/-- `applyWrite` of an update. -/
def applyWrite (lib : Library) (m : Registered) (inst : Row) (entries : List (String × Raw)) :
    Except (List (String × String)) Row :=
  let acc := entries.foldl (applyEntry lib m) (inst, [])
  if acc.2 = [] then .ok acc.1 else .error acc.2

/-- The version a row has. -/
def versionOf (row : Row) : ℤ :=
  match row versionColumn with
  | .int n => n
  | _ => 0

/-- A PATCH between its load and its update. -/
structure Patch where
  body : Body
  loaded : Row

/-- What `updateVersioned` is about to write, and the version that guards it. -/
structure Edit where
  guard : ℤ
  inst : Row

/-- The body without the version. -/
def Patch.entries (m : Registered) (p : Patch) : List (String × Raw) :=
  p.body.entries.filter fun e => decide (e.1 ≠ m.versionName)

/-- The version a PATCH expects: the one in its body, or the one it has loaded. -/
def Patch.expected (lib : Library) (m : Registered) (p : Patch) : Option ℤ :=
  match p.body.entries.lookup m.versionName with
  | some raw => asInt64 lib raw
  | none => some (m.version.get (versionOf p.loaded))

/-- `updateVersioned` up to its update; `none` for a request that is refused. -/
def Patch.edit (lib : Library) (m : Registered) (p : Patch) : Option Edit :=
  match p.expected lib m with
  | none => none
  | some expected =>
    match applyWrite lib m p.loaded (p.entries m) with
    | .error _ => none
    | .ok inst =>
      let next := m.version.set (versionOf p.loaded) (IntKind.wrap 64 (expected + 1))
      some ⟨expected, Function.update inst versionColumn (.int next)⟩

/-- `fileKey`. -/
def fileKey : Value → String
  | .text s => s
  | _ => ""

/-- `fileFence`: the row's files are the loaded ones. -/
def fileFence (m : Registered) (loaded row : Row) : Bool :=
  m.fields.all fun f => !f.isFile || decide (fileKey (row f.column) = fileKey (loaded f.column))

/-- `updateOmits`: the columns left out of the update. -/
def updateOmits (m : Registered) (loaded inst : Row) : List String :=
  m.omitOnUpdate ++ (m.fields.filter fun f =>
    f.isFile && decide (fileKey (inst f.column) = fileKey (loaded f.column))).map Field.column

/-- The columns of the update's `SET`. -/
def setColumns (m : Registered) (loaded inst : Row) : List String :=
  (m.schema.narrowToChanged loaded inst).filter fun c => decide (c ∉ updateOmits m loaded inst)

/-- The guarded update: the row it leaves, unless it affects no row. -/
def updateRow (m : Registered) (p : Patch) (e : Edit) (row : Row) : Option Row :=
  if versionOf row = e.guard ∧ fileFence m p.loaded row = true ∧
      (m.countsChanged = true →
        (setColumns m p.loaded e.inst).any (fun c => !valuesEqual (e.inst c) (row c)) = true) then
    some fun c => if c ∈ setColumns m p.loaded e.inst then e.inst c else row c
  else none

/-! ## Interleavings -/

/-- The row, and the requests between their load and their update. -/
structure Server (ι : Type) where
  row : Row
  pending : ι → Option Patch

/-- What can happen next: a request loads the row, or it does the rest. It may also fail on the way
(`ok` is false): a file is refused, or the database fails. -/
inductive Event (ι : Type)
  | load (c : ι) (body : Body)
  | update (c : ι) (ok : Bool)

section Step

variable {ι : Type} [DecidableEq ι]

/-- The update of a request that succeeds: the row it leaves. -/
def commit (lib : Library) (m : Registered) (p : Patch) (row : Row) : Option Row :=
  (p.edit lib m).bind fun e => updateRow m p e row

/-- A step of the server. -/
def Step (lib : Library) (m : Registered) (s : Server ι) (e : Event ι) (s' : Server ι) : Prop :=
  match e with
  | .load c body =>
    s.pending c = none ∧ s' = ⟨s.row, Function.update s.pending c (some ⟨body, s.row⟩)⟩
  | .update c ok =>
    ∃ p, s.pending c = some p ∧
      s' = ⟨if ok then (commit lib m p s.row).getD s.row else s.row,
        Function.update s.pending c none⟩

end Step

/-! ## What the parts do -/

section Given

variable {lib : Library} {m : Registered}

/-- The value an entry of the body gives to a column that stores `stored`. -/
def entryGives (lib : Library) (m : Registered) (column : String) (stored : Value)
    (entry : String × Raw) : Option Value :=
  match m.field entry.1 with
  | none => none
  | some f =>
    if f.column = column then
      match writeField lib m.pk f stored entry.2 with
      | .ok v => v
      | .error _ => none
    else none

/-- The value a PATCH gives to a column: that of the field of its body that is set, if there is one. -/
def given (lib : Library) (m : Registered) (loaded : Row) (entries : List (String × Raw))
    (column : String) : Option Value :=
  entries.findSome? (entryGives lib m column (loaded column))

theorem field_spec {name : String} {f : Field} (h : m.field name = some f) :
    f ∈ m.fields ∧ f.name = name := by
  refine ⟨mem_of_find?_eq_some h, ?_⟩
  simpa using List.find?_some h

theorem field_of_entryGives {column : String} {stored v : Value} {entry : String × Raw}
    (h : entryGives lib m column stored entry = some v) :
    ∃ f ∈ m.fields, f.name = entry.1 ∧ f.column = column := by
  unfold entryGives at h
  split at h
  · cases h
  · rename_i f hf
    split at h
    · rename_i hcolumn
      exact ⟨f, (field_spec hf).1, (field_spec hf).2, hcolumn⟩
    · cases h

/-- At most one entry of the body gives a value to a column. -/
theorem entryGives_eq_none {column : String} {stored stored' v : Value} {entry entry' : String × Raw}
    (h : entryGives lib m column stored entry = some v) (hne : entry'.1 ≠ entry.1) :
    entryGives lib m column stored' entry' = none := by
  obtain ⟨f, hf, hname, hcolumn⟩ := field_of_entryGives h
  cases h' : entryGives lib m column stored' entry' with
  | none => rfl
  | some v' =>
    obtain ⟨g, hg, hname', hcolumn'⟩ := field_of_entryGives h'
    have hfg := inj_on_of_nodup_map m.columns_nodup hf hg (hcolumn.trans hcolumn'.symm)
    rw [← hname, ← hname', hfg] at hne
    exact absurd rfl hne

theorem applyEntry_row (acc : Row × List (String × String)) (entry : String × Raw) (column : String) :
    (applyEntry lib m acc entry).1 column =
      (entryGives lib m column (acc.1 column) entry).getD (acc.1 column) := by
  unfold applyEntry entryGives
  cases hf : m.field entry.1 with
  | none => rfl
  | some f =>
    by_cases hcolumn : f.column = column
    · subst hcolumn
      simp only [if_true]
      cases hwrite : writeField lib m.pk f (acc.1 f.column) entry.2 with
      | error msg => rfl
      | ok v =>
        cases v with
        | none => rfl
        | some v => simp
    · simp only [if_neg hcolumn, Option.getD_none]
      cases hwrite : writeField lib m.pk f (acc.1 f.column) entry.2 with
      | error msg => rfl
      | ok v =>
        cases v with
        | none => rfl
        | some v => exact Function.update_of_ne (Ne.symm hcolumn) v acc.1

theorem foldl_applyEntry (entries : List (String × Raw)) (hnodup : (entries.map Prod.fst).Nodup)
    (acc : Row × List (String × String)) (column : String) :
    (entries.foldl (applyEntry lib m) acc).1 column =
      (given lib m acc.1 entries column).getD (acc.1 column) := by
  induction entries generalizing acc with
  | nil => rfl
  | cons entry entries ih =>
    rw [map_cons, nodup_cons] at hnodup
    rw [foldl_cons, ih hnodup.2, given, given, applyEntry_row, List.findSome?_cons]
    cases hgives : entryGives lib m column (acc.1 column) entry with
    | none => rfl
    | some v =>
      have hnone : entries.findSome? (entryGives lib m column v) = none := by
        rw [List.findSome?_eq_none_iff]
        intro entry' hentry'
        refine entryGives_eq_none hgives fun heq => hnodup.1 ?_
        exact heq ▸ mem_map_of_mem hentry'
      simp only [Option.getD_some, hnone, Option.getD_none]

/-- **What an accepted PATCH leaves in the row it has loaded.** -/
theorem applyWrite_spec {inst inst' : Row} {entries : List (String × Raw)}
    (hnodup : (entries.map Prod.fst).Nodup) (h : applyWrite lib m inst entries = .ok inst')
    (column : String) : inst' column = (given lib m inst entries column).getD (inst column) := by
  unfold applyWrite at h
  dsimp only at h
  split at h
  · cases h
    exact foldl_applyEntry entries hnodup (inst, []) column
  · cases h

end Given

/-! ### Versions -/

namespace IntKind

theorem wrap_eq {bits : ℕ} (hbits : 0 < bits) {n : ℤ} (hlo : -2 ^ (bits - 1) ≤ n)
    (hhi : n < 2 ^ (bits - 1)) : wrap bits n = n := by
  obtain ⟨b, rfl⟩ : ∃ b, bits = b + 1 := ⟨bits - 1, by omega⟩
  simp only [Nat.add_sub_cancel] at hlo hhi
  have hpow : (2 : ℤ) ^ (b + 1) = 2 * 2 ^ b := by rw [pow_succ]; ring
  rw [wrap, Nat.add_sub_cancel, hpow, Int.emod_eq_of_lt (by omega) (by omega)]
  omega

theorem wrap_bounds {bits : ℕ} (hbits : 0 < bits) (n : ℤ) :
    -2 ^ (bits - 1) ≤ wrap bits n ∧ wrap bits n < 2 ^ (bits - 1) := by
  obtain ⟨b, rfl⟩ : ∃ b, bits = b + 1 := ⟨bits - 1, by omega⟩
  have hpow : (2 : ℤ) ^ (b + 1) = 2 * 2 ^ b := by rw [pow_succ]; ring
  have hpos : (0 : ℤ) < 2 ^ b := by positivity
  have hlo := Int.emod_nonneg (n + 2 ^ b) (b := 2 * 2 ^ b) (by omega)
  have hhi := Int.emod_lt_of_pos (n + 2 ^ b) (b := 2 * 2 ^ b) (by omega)
  rw [wrap, Nat.add_sub_cancel, hpow]
  omega

variable {k : IntKind} {n current : ℤ}

theorem holds_set (h : k.Holds current) : k.Holds (k.set current n) := by
  unfold Holds set at *
  split
  · exact wrap_bounds k.bits_pos n
  · rename_i hsigned
    rw [if_neg hsigned] at h
    split
    · exact ⟨Int.emod_nonneg _ (by positivity), Int.emod_lt_of_pos _ (by positivity)⟩
    · exact h

theorem lower_of_holds (h : k.Holds n) : -2 ^ 63 ≤ n := by
  unfold Holds at h
  split at h
  · have hpow : (2 : ℤ) ^ (k.bits - 1) ≤ 2 ^ 63 :=
      pow_le_pow_right₀ (by norm_num) (by have := k.bits_le; omega)
    omega
  · omega

/-- The next version is stored, where it fits. -/
theorem set_next (h : k.Holds n) (hfits : k.Fits n) : k.set current (wrap 64 (n + 1)) = n + 1 := by
  have hlower := lower_of_holds h
  have hwrap : wrap 64 (n + 1) = n + 1 := wrap_eq (by norm_num) (by norm_num; omega) (by
    have := hfits.2
    norm_num
    omega)
  rw [hwrap]
  have hnext := hfits.1
  unfold Holds at hnext
  unfold set
  split
  · rename_i hsigned
    rw [if_pos hsigned] at hnext
    exact wrap_eq k.bits_pos hnext.1 hnext.2
  · rename_i hsigned
    rw [if_neg hsigned] at hnext
    rw [if_pos hnext.1, Int.emod_eq_of_lt hnext.1 hnext.2]

/-- A version whose successor is held but is no `int64`: the row keeps its version. -/
theorem set_last (hnext : k.Holds (n + 1)) (hlt : n < 2 ^ 63) (hge : 2 ^ 63 ≤ n + 1) :
    k.set current (wrap 64 (n + 1)) = current := by
  obtain rfl : n = 2 ^ 63 - 1 := by omega
  unfold Holds at hnext
  unfold set
  split
  · rename_i hsigned
    rw [if_pos hsigned] at hnext
    have hpow : (2 : ℤ) ^ (k.bits - 1) ≤ 2 ^ 63 :=
      pow_le_pow_right₀ (by norm_num) (by have := k.bits_le; omega)
    omega
  · exact if_neg (by decide)

end IntKind

/-! ### The update -/

section Update

variable {lib : Library} {m : Registered} {p : Patch} {e : Edit} {row row' : Row}

/-- The version column of the row is one of its type. -/
def Typed (m : Registered) (row : Row) : Prop :=
  row versionColumn = .int (versionOf row) ∧ m.version.Holds (versionOf row)

theorem versionOf_eq {n : ℤ} (h : row versionColumn = .int n) : versionOf row = n := by
  rw [versionOf, h]

theorem typed_of_eq {n : ℤ} (h : row versionColumn = .int n) (hn : m.version.Holds n) :
    Typed m row := by
  rw [Typed, versionOf_eq h]
  exact ⟨h, hn⟩

theorem expected_lt {n : ℤ} (h : p.expected lib m = some n) : n < 2 ^ 63 := by
  unfold Patch.expected at h
  split at h
  · rename_i raw hraw
    unfold asInt64 at h
    split at h
    · rename_i q
      split at h
      · rename_i hq
        cases h
        have hmax := hq.2
        simp only [maxExactJSONInt, abs_le] at hmax
        omega
      · cases h
    · rename_i s
      obtain ⟨-, hrange⟩ := Option.filter_eq_some_iff.1 h
      simp only [decide_eq_true_eq] at hrange
      exact hrange.2
    · cases h
  · cases h
    unfold IntKind.get
    split <;> omega

/-- **What `updateVersioned` prepares.** -/
theorem edit_spec (h : p.edit lib m = some e) :
    e.guard < 2 ^ 63 ∧
      e.inst versionColumn =
        .int (m.version.set (versionOf p.loaded) (IntKind.wrap 64 (e.guard + 1))) ∧
      ∀ c, c ≠ versionColumn →
        e.inst c = (given lib m p.loaded (p.entries m) c).getD (p.loaded c) := by
  unfold Patch.edit at h
  split at h
  · cases h
  · rename_i expected hexpected
    split at h
    · cases h
    · rename_i inst hinst
      cases h
      refine ⟨expected_lt hexpected, ?_, fun c hc => ?_⟩
      · dsimp only
        rw [Function.update_self]
      · dsimp only
        rw [Function.update_of_ne hc]
        exact applyWrite_spec (p.body.nodup.sublist (filter_sublist.map Prod.fst)) hinst c

theorem updateRow_spec (h : updateRow m p e row = some row') :
    versionOf row = e.guard ∧
      ∀ c, row' c = if c ∈ setColumns m p.loaded e.inst then e.inst c else row c := by
  unfold updateRow at h
  split_ifs at h
  rename_i hcond
  cases h
  exact ⟨hcond.1, fun c => rfl⟩

/-- An update writes the value to the column, over the loaded one: the edit selects the column, and it is
not left out. A file column is left out when its key stays. -/
def Registered.Writes (m : Registered) (column : String) (value loaded : Value) : Prop :=
  m.schema.Changes column value loaded ∧ column ∉ m.omitOnUpdate ∧
    ∀ f ∈ m.fields, f.isFile = true → f.column = column → fileKey value ≠ fileKey loaded

theorem mem_updateOmits_iff {loaded inst : Row} {c : String} :
    c ∈ updateOmits m loaded inst ↔
      c ∈ m.omitOnUpdate ∨
        ∃ f ∈ m.fields, f.isFile = true ∧ f.column = c ∧ fileKey (inst c) = fileKey (loaded c) := by
  simp only [updateOmits, mem_append, mem_map, mem_filter, Bool.and_eq_true, decide_eq_true_eq]
  refine or_congr Iff.rfl ⟨?_, ?_⟩
  · rintro ⟨f, ⟨hf, hfile, hkey⟩, rfl⟩
    exact ⟨f, hf, hfile, rfl, hkey⟩
  · rintro ⟨f, hf, hfile, rfl, hkey⟩
    exact ⟨f, ⟨hf, hfile, hkey⟩, rfl⟩

theorem writes_iff {loaded inst : Row} {c : String} :
    m.Writes c (inst c) (loaded c) ↔
      m.schema.Changes c (inst c) (loaded c) ∧ c ∉ updateOmits m loaded inst := by
  rw [Registered.Writes, mem_updateOmits_iff]
  refine and_congr Iff.rfl ⟨?_, fun h => ⟨fun hc => h (.inl hc), fun f hf hfile hcolumn hkey => ?_⟩⟩
  · rintro ⟨homit, hkeys⟩ (hc | ⟨f, hf, hfile, hcolumn, hkey⟩)
    · exact homit hc
    · exact hkeys f hf hfile hcolumn hkey
  · exact h (.inr ⟨f, hf, hfile, hcolumn, hkey⟩)

theorem version_not_omitted : versionColumn ∉ updateOmits m p.loaded e.inst := by
  rw [mem_updateOmits_iff]
  rintro (hmem | ⟨f, hf, hfile, hcolumn, -⟩)
  · exact m.version_omitted hmem
  · rw [m.version_field f hf hcolumn] at hfile
    cases hfile

theorem changes_version_iff {value stored : Value} :
    m.schema.Changes versionColumn value stored ↔ valuesEqual value stored = false := by
  constructor
  · rintro ⟨c, hc, hname, -, hne⟩
    simpa [Column.unchanged, m.version_integer c hc hname] using hne
  · intro hne
    obtain ⟨c, hc, hname, hup⟩ := m.versioned
    exact ⟨c, hc, hname, hup, by simp [Column.unchanged, hne]⟩

/-- The version is written when it changes. -/
theorem version_mem_setColumns_iff :
    versionColumn ∈ setColumns m p.loaded e.inst ↔
      valuesEqual (e.inst versionColumn) (p.loaded versionColumn) = false := by
  rw [setColumns, mem_filter, mem_narrowToChanged_iff, changes_version_iff]
  simp only [m.version_primary, false_and, or_false, version_not_omitted, not_false_iff, decide_true,
    and_true]

variable (hedit : p.edit lib m = some e) (h : updateRow m p e row = some row')
  (hrow : Typed m row) (hloaded : Typed m p.loaded)

include hedit h hrow hloaded

theorem typed_updateRow : Typed m row' := by
  have hrow' := (updateRow_spec h).2 versionColumn
  split at hrow'
  · exact typed_of_eq (hrow'.trans (edit_spec hedit).2.1) (IntKind.holds_set hloaded.2)
  · exact typed_of_eq (hrow'.trans hrow.1) hrow.2

/-- **The version goes up by one**, where the next one fits and the PATCH has not loaded a later row. -/
theorem version_updateRow (hle : versionOf p.loaded ≤ versionOf row)
    (hfits : m.version.Fits e.guard) :
    row' versionColumn = .int (e.guard + 1) ∧ versionColumn ∈ setColumns m p.loaded e.inst := by
  obtain ⟨hguard, hrow'⟩ := updateRow_spec h
  rw [hguard] at hle
  have hholds : m.version.Holds e.guard := hguard ▸ hrow.2
  have hinst := (edit_spec hedit).2.1
  rw [IntKind.set_next hholds hfits] at hinst
  have hmem : versionColumn ∈ setColumns m p.loaded e.inst := by
    rw [version_mem_setColumns_iff, hinst, hloaded.1]
    simp only [valuesEqual, decide_eq_false_iff_not]
    omega
  rw [hrow' versionColumn, if_pos hmem]
  exact ⟨hinst, hmem⟩

/-- Where the next version does not fit, the row does not get it. -/
theorem fits_of_version (hnext : row' versionColumn = .int (e.guard + 1)) :
    m.version.Fits e.guard := by
  obtain ⟨hlt, hinst, -⟩ := edit_spec hedit
  obtain ⟨hguard, hrow'⟩ := updateRow_spec h
  have htyped := typed_updateRow hedit h hrow hloaded
  rw [Typed, versionOf_eq hnext] at htyped
  refine ⟨htyped.2, ?_⟩
  by_contra hge
  rw [IntKind.set_last htyped.2 hlt (not_lt.1 hge), ← hloaded.1] at hinst
  have hmem : versionColumn ∉ setColumns m p.loaded e.inst := by
    rw [version_mem_setColumns_iff, hinst, valuesEqual_refl]
    simp
  rw [hrow' versionColumn, if_neg hmem, hrow.1, hguard] at hnext
  have heq := Value.int.inj hnext
  omega

end Update

/-! ## Runs -/

section Runs

variable {ι : Type} [DecidableEq ι]

/-- A row of the model, before any request. -/
structure Start (m : Registered) where
  row : Row
  typed : Typed m row

/-- A server with no request under way. -/
def Start.server {m : Registered} (start : Start m) : Server ι := ⟨start.row, fun _ => none⟩

variable (lib : Library) {m : Registered} (start : Start m) (es : List (Event ι))

/-- A moment of the run. -/
def Reached (s : Server ι) : Prop := ∃ a b, es = a ++ b ∧ Run (Step lib m) start.server a s

/-- A PATCH of the run that succeeds: its update finds the row at the version it expects. -/
structure Success where
  before : List (Event ι)
  later : List (Event ι)
  caller : ι
  patch : Patch
  edit : Edit
  found : Server ι
  left : Row
  split : es = before ++ .update caller true :: later
  run : Run (Step lib m) start.server before found
  pending : found.pending caller = some patch
  prepared : patch.edit lib m = some edit
  updated : updateRow m patch edit found.row = some left

variable {lib start es}

/-- The value a successful PATCH gives to a column. -/
def Success.gives (x : Success lib start es) (column : String) : Option Value :=
  given lib m x.patch.loaded (x.patch.entries m) column

/-- Every value the PATCH gives is one it writes, or one the row has. Where it gives none it may still
write the value it has loaded, to a column of an interface type: then the row still has that one. -/
def Success.Held (x : Success lib start es) : Prop :=
  ∀ c, c ≠ versionColumn →
    match x.gives c with
    | some v => m.Writes c v (x.patch.loaded c) ∨ valuesEqual v (x.found.row c) = true
    | none => m.Writes c (x.patch.loaded c) (x.patch.loaded c) →
        valuesEqual (x.found.row c) (x.patch.loaded c) = true

variable (lib start es)

/-- **No update is lost.** -/
structure LosesNoUpdate : Prop where
  /-- A PATCH that succeeds leaves the row as it stood at the version it expected, with the values it
  gives, and the next version. -/
  updates : ∀ x : Success lib start es,
    (∀ s, Reached lib start es s → versionOf s.row = x.edit.guard → ∀ c, c ≠ versionColumn →
      valuesEqual ((x.gives c).getD (s.row c)) (x.left c) = true) ∧
    x.left versionColumn = .int (x.edit.guard + 1)
  /-- The successful PATCHes are ordered by version. -/
  ordered : ∀ x y : Success lib start es, x.before.length < y.before.length →
    x.edit.guard < y.edit.guard
  /-- There is one row for each version: what a PATCH finds is what the one before it has left. -/
  chained : ∀ s s', Reached lib start es s → Reached lib start es s' →
    versionOf s.row = versionOf s'.row → s.row = s'.row

variable {lib start es} {s s' : Server ι} {e : Event ι}

/-! ### Steps -/

theorem step_det (s : Server ι) (e : Event ι) (s₁ s₂ : Server ι) (h₁ : Step lib m s e s₁)
    (h₂ : Step lib m s e s₂) : s₁ = s₂ := by
  cases e with
  | load c body => exact h₁.2.trans h₂.2.symm
  | update c ok =>
    obtain ⟨p₁, hp₁, rfl⟩ := h₁
    obtain ⟨p₂, hp₂, rfl⟩ := h₂
    rw [hp₁] at hp₂
    cases hp₂
    rfl

/-- **What a step does**: it leaves the row, or it is the update of a PATCH that succeeds. -/
theorem step_row (h : Step lib m s e s') :
    s'.row = s.row ∨ ∃ c p edit, e = .update c true ∧ s.pending c = some p ∧
      p.edit lib m = some edit ∧ updateRow m p edit s.row = some s'.row := by
  cases e with
  | load c body =>
    rw [h.2]
    exact .inl rfl
  | update c ok =>
    obtain ⟨p, hp, rfl⟩ := h
    cases ok with
    | false => exact .inl rfl
    | true =>
      cases hcommit : commit lib m p s.row with
      | none => exact .inl rfl
      | some row =>
        obtain ⟨edit, hedit, hrow⟩ := Option.bind_eq_some_iff.1 hcommit
        exact .inr ⟨c, p, edit, rfl, hp, hedit, hrow⟩

/-- A request under way after a step was under way before, or has loaded the row just now. -/
theorem step_pending (h : Step lib m s e s') {c : ι} {p : Patch} (hp : s'.pending c = some p) :
    s.pending c = some p ∨ p.loaded = s.row ∧ s'.row = s.row := by
  cases e with
  | load c' body =>
    rw [h.2] at hp ⊢
    dsimp only at hp
    by_cases hc : c = c'
    · subst hc
      rw [Function.update_self] at hp
      cases hp
      exact .inr ⟨rfl, rfl⟩
    · rw [Function.update_of_ne hc] at hp
      exact .inl hp
  | update c' ok =>
    obtain ⟨p', -, rfl⟩ := h
    dsimp only at hp
    by_cases hc : c = c'
    · subst hc
      rw [Function.update_self] at hp
      cases hp
    · rw [Function.update_of_ne hc] at hp
      exact .inl hp

/-- The rows of the server hold a version of its type. -/
def AllTyped (m : Registered) (s : Server ι) : Prop :=
  Typed m s.row ∧ ∀ c p, s.pending c = some p → Typed m p.loaded

theorem allTyped_step (s : Server ι) (e : Event ι) (s' : Server ι) (h : Step lib m s e s')
    (hs : AllTyped m s) : AllTyped m s' := by
  constructor
  · obtain hrow | ⟨c, p, edit, rfl, hp, hedit, hrow⟩ := step_row h
    · rw [hrow]
      exact hs.1
    · exact typed_updateRow hedit hrow hs.1 (hs.2 c p hp)
  · intro c p hp
    obtain hp | ⟨hloaded, -⟩ := step_pending h hp
    · exact hs.2 c p hp
    · rw [hloaded]
      exact hs.1

theorem allTyped_of_run {a : List (Event ι)} (h : Run (Step lib m) start.server a s) :
    AllTyped m s := by
  refine h.preserves allTyped_step ⟨start.typed, ?_⟩
  rintro c p ⟨⟩

/-! ### Runs whose versions fit -/

section Fits

variable (hfits : ∀ x : Success lib start es, m.version.Fits x.edit.guard)

include hfits

/-- A step from a moment of the run leaves the row, or raises its version by one. -/
theorem step_version {a b : List (Event ι)} (hsplit : es = a ++ e :: b)
    (hrun : Run (Step lib m) start.server a s)
    (hle : ∀ c p, s.pending c = some p → versionOf p.loaded ≤ versionOf s.row)
    (h : Step lib m s e s') : s'.row = s.row ∨ versionOf s'.row = versionOf s.row + 1 := by
  obtain hrow | ⟨c, p, edit, rfl, hp, hedit, hrow⟩ := step_row h
  · exact .inl hrow
  · have htyped := allTyped_of_run hrun
    have hfit := hfits ⟨a, b, c, p, edit, s, s'.row, hsplit, hrun, hp, hedit, hrow⟩
    have hnext := version_updateRow hedit hrow htyped.1 (htyped.2 c p hp) (hle c p hp) hfit
    rw [versionOf_eq hnext.1, (updateRow_spec hrow).1]
    exact .inr rfl

/-- No request has loaded a later version than the row has. -/
theorem loaded_le {a b : List (Event ι)} (hsplit : es = a ++ b)
    (hrun : Run (Step lib m) start.server a s) {c : ι} {p : Patch} (hp : s.pending c = some p) :
    versionOf p.loaded ≤ versionOf s.row := by
  induction a using List.reverseRecOn generalizing b s c p with
  | nil =>
    cases hrun
    cases hp
  | append_singleton a e ih =>
    obtain ⟨s₁, hrun₁, hstep⟩ := hrun.snoc_inv
    have hsplit₁ : es = a ++ e :: b := by simp [hsplit]
    have hversion := step_version hfits hsplit₁ hrun₁ (fun c p hp => ih hsplit₁ hrun₁ hp) hstep
    obtain hp₁ | ⟨hloaded, hrow⟩ := step_pending hstep hp
    · have hle := ih hsplit₁ hrun₁ hp₁
      obtain hrow | hrow := hversion
      · rwa [hrow]
      · omega
    · rw [hloaded, hrow]

/-- **The version counts the changes.** Later in the run the row is the same, or its version is
higher. -/
theorem row_eq_or_lt {a d b : List (Event ι)} (hsplit : es = a ++ (d ++ b))
    (hrun : Run (Step lib m) start.server a s) (h : Run (Step lib m) s d s') :
    s'.row = s.row ∨ versionOf s.row < versionOf s'.row := by
  induction d generalizing a s with
  | nil =>
    cases h
    exact .inl rfl
  | cons e d ih =>
    obtain ⟨s₁, hstep, hrest⟩ := h.cons_inv
    have hnow := step_version hfits hsplit hrun
      (fun c p hp => loaded_le hfits (b := e :: d ++ b) hsplit hrun hp) hstep
    have hlater := ih (by simpa using hsplit) (hrun.append (.single hstep)) hrest
    obtain hnow | hnow := hnow
    · rwa [← hnow]
    · obtain hlater | hlater := hlater
      · rw [hlater]
        omega
      · omega

/-- Of two moments of the run one comes first. -/
theorem row_eq_of_version (h : Reached lib start es s) (h' : Reached lib start es s')
    (hversion : versionOf s.row = versionOf s'.row) : s.row = s'.row := by
  obtain ⟨a, b, hsplit, hrun⟩ := h
  obtain ⟨a', b', hsplit', hrun'⟩ := h'
  have hwlog : ∀ {a d b : List (Event ι)} {t t' : Server ι}, es = a ++ d ++ b →
      Run (Step lib m) start.server a t → Run (Step lib m) start.server (a ++ d) t' →
      versionOf t.row = versionOf t'.row → t'.row = t.row := by
    intro a d b t t' hes ht ht' heq
    obtain ⟨t₁, ht₁, hrest⟩ := ht'.append_inv
    obtain rfl := ht.det step_det ht₁
    refine (row_eq_or_lt hfits (by simpa using hes) ht hrest).resolve_right ?_
    omega
  rcases append_eq_append_iff.1 (hsplit.symm.trans hsplit') with ⟨d, rfl, rfl⟩ | ⟨d, rfl, rfl⟩
  · exact (hwlog hsplit' hrun hrun' hversion).symm
  · exact hwlog hsplit hrun' hrun hversion.symm

end Fits

/-! ### The columns a successful PATCH sets -/

namespace Success

variable (x : Success lib start es)

theorem reached : Reached lib start es x.found := ⟨x.before, _, x.split, x.run⟩

theorem typed_found : Typed m x.found.row := (allTyped_of_run x.run).1

theorem typed_loaded : Typed m x.patch.loaded := (allTyped_of_run x.run).2 _ _ x.pending

theorem version_found : versionOf x.found.row = x.edit.guard := (updateRow_spec x.updated).1

variable {c : String}

/-- An update that sets the version sets what the PATCH writes, and nothing else. -/
theorem mem_setColumns_iff (h : versionColumn ∈ setColumns m x.patch.loaded x.edit.inst) :
    c ∈ setColumns m x.patch.loaded x.edit.inst ↔
      m.Writes c (x.edit.inst c) (x.patch.loaded c) := by
  rw [version_mem_setColumns_iff, ← changes_version_iff] at h
  rw [setColumns, mem_filter, mem_narrowToChanged_iff, decide_eq_true_eq, writes_iff]
  constructor
  · rintro ⟨hc | ⟨-, hnone⟩, homit⟩
    · exact ⟨hc, homit⟩
    · exact absurd h (hnone versionColumn)
  · exact fun hc => ⟨.inl hc.1, hc.2⟩

theorem left_eq (c : String) :
    x.left c = if c ∈ setColumns m x.patch.loaded x.edit.inst then x.edit.inst c
      else x.found.row c :=
  (updateRow_spec x.updated).2 c

theorem inst_eq (hc : c ≠ versionColumn) :
    x.edit.inst c = (x.gives c).getD (x.patch.loaded c) :=
  (edit_spec x.prepared).2.2 c hc

/-- **The row a PATCH leaves**, by what it gives to a column. -/
theorem left_spec (h : versionColumn ∈ setColumns m x.patch.loaded x.edit.inst) (hheld : x.Held)
    (hc : c ≠ versionColumn) :
    valuesEqual ((x.gives c).getD (x.found.row c)) (x.left c) = true := by
  have hinst := x.inst_eq hc
  have hheld := hheld c hc
  rw [x.left_eq]
  cases hgives : x.gives c with
  | none =>
    rw [hgives, Option.getD_none] at hinst
    rw [hgives] at hheld
    rw [Option.getD_none]
    split
    · rename_i hmem
      rw [x.mem_setColumns_iff h, hinst] at hmem
      rw [hinst]
      exact hheld hmem
    · exact valuesEqual_refl _
  | some v =>
    rw [hgives, Option.getD_some] at hinst
    rw [hgives] at hheld
    rw [Option.getD_some]
    split
    · rw [hinst, valuesEqual_refl]
    · rename_i hmem
      rw [x.mem_setColumns_iff h, hinst] at hmem
      exact hheld.resolve_left hmem

/-- A PATCH that leaves the next version and what it gives has held what it gives. -/
theorem held_of_left (h : x.left versionColumn = .int (x.edit.guard + 1))
    (hleft : ∀ c, c ≠ versionColumn →
      valuesEqual ((x.gives c).getD (x.found.row c)) (x.left c) = true) : x.Held := by
  have hversion : versionColumn ∈ setColumns m x.patch.loaded x.edit.inst := by
    by_contra hmem
    rw [x.left_eq, if_neg hmem, x.typed_found.1, x.version_found] at h
    have heq := Value.int.inj h
    omega
  intro c hc
  have hinst := x.inst_eq hc
  have hmem := x.mem_setColumns_iff hversion (c := c)
  have hsame := hleft c hc
  rw [x.left_eq] at hsame
  cases hgives : x.gives c with
  | none =>
    rw [hgives, Option.getD_none] at hinst hsame
    rw [hinst] at hmem
    intro hwrites
    rwa [if_pos (hmem.2 hwrites), hinst] at hsame
  | some v =>
    rw [hgives, Option.getD_some] at hinst hsame
    rw [hinst] at hmem
    by_cases hwrites : m.Writes c v (x.patch.loaded c)
    · exact .inl hwrites
    · rw [if_neg (mt hmem.1 hwrites)] at hsame
      exact .inr hsame

/-- The update as a step of the run. -/
theorem step : ∃ s', Step lib m x.found (.update x.caller true) s' ∧ s'.row = x.left := by
  have hcommit : commit lib m x.patch x.found.row = some x.left := by
    rw [commit, x.prepared]
    exact x.updated
  refine ⟨_, ⟨x.patch, x.pending, rfl⟩, ?_⟩
  rw [hcommit]
  rfl

theorem version_left (hfits : ∀ y : Success lib start es, m.version.Fits y.edit.guard) :
    x.left versionColumn = .int (x.edit.guard + 1) ∧
      versionColumn ∈ setColumns m x.patch.loaded x.edit.inst :=
  version_updateRow x.prepared x.updated x.typed_found x.typed_loaded
    (loaded_le hfits x.split x.run x.pending) (hfits x)

/-- A later success finds a later version. -/
theorem guard_lt (hfits : ∀ y : Success lib start es, m.version.Fits y.edit.guard)
    (y : Success lib start es) (h : x.before.length < y.before.length) :
    x.edit.guard < y.edit.guard := by
  obtain ⟨s', hstep, hrow⟩ := x.step
  -- The later prefix of the run contains the earlier one and its update.
  obtain ⟨d, hd⟩ : ∃ d, y.before = x.before ++ .update x.caller true :: d := by
    rcases append_eq_append_iff.1 (x.split.symm.trans y.split) with ⟨d, hd, hrest⟩ | ⟨d, hd, -⟩
    · cases d with
      | nil => simp [hd] at h
      | cons e d =>
        simp only [cons_append, List.cons.injEq] at hrest
        exact ⟨d, by rw [hd, hrest.1]⟩
    · rw [hd, length_append] at h
      omega
  have hy := y.run
  rw [hd] at hy
  obtain ⟨s₁, hrun₁, hrest⟩ := hy.append_inv
  obtain ⟨s₂, hstep₂, hrest₂⟩ := hrest.cons_inv
  obtain rfl := x.run.det step_det hrun₁
  obtain rfl := step_det _ _ _ _ hstep hstep₂
  have hsplit : es = (x.before ++ [.update x.caller true]) ++
      (d ++ .update y.caller true :: y.later) := by
    refine y.split.trans ?_
    rw [hd]
    simp
  have hversion : versionOf s'.row = x.edit.guard + 1 := by
    rw [hrow]
    exact versionOf_eq (x.version_left hfits).1
  rw [← y.version_found]
  obtain heq | hlt := row_eq_or_lt hfits hsplit (x.run.append (.single hstep)) hrest₂
  · rw [heq]
    omega
  · omega

end Success

/-- A run that loses no update: its next versions fit, and its PATCHes hold what they give. -/
theorem held_of_losesNoUpdate (h : LosesNoUpdate lib start es) (x : Success lib start es) :
    m.version.Fits x.edit.guard ∧ x.Held := by
  obtain ⟨hleft, hversion⟩ := h.updates x
  have hfits := fits_of_version x.prepared x.updated x.typed_found x.typed_loaded hversion
  exact ⟨hfits, x.held_of_left hversion (hleft x.found x.reached x.version_found)⟩

theorem losesNoUpdate_of_held
    (h : ∀ x : Success lib start es, m.version.Fits x.edit.guard ∧ x.Held) :
    LosesNoUpdate lib start es := by
  have hfits := fun x => (h x).1
  refine ⟨fun x => ⟨fun s hs hversion c hc => ?_, (x.version_left hfits).1⟩,
    fun x y => x.guard_lt hfits y, fun s s' => row_eq_of_version hfits⟩
  rw [row_eq_of_version hfits hs x.reached (hversion.trans x.version_found.symm)]
  exact x.left_spec (x.version_left hfits).2 (h x).2 hc

end Runs

/-! ## A value that is dropped -/

/-- A library for rows of text. -/
def textLibrary : Library where
  constraintMessage _ _ := ""
  coerceValue _ raw := match raw with
    | .text s => .ok (.text s)
    | _ => .error "must be a string"
  set _ raw := match raw with
    | .text s => .ok (.text s)
    | _ => .error "must be a string"
  sprint v := match v with
    | .text s => s
    | _ => ""
  textProblem _ := ""
  parseInt _ := none

/-- A model with a name and a version. -/
def documents : Registered where
  schema := ⟨[⟨"id", true, false⟩, ⟨"name", true, false⟩, ⟨"version", true, false⟩], ["id"]⟩
  fields := [⟨"name", "name", .string, false, false, false, false, false⟩]
  pk := "id"
  versionName := "version"
  version := ⟨true, 64, by decide, by decide⟩
  omitOnUpdate := []
  countsChanged := false
  names_nodup := by simp
  columns_nodup := by simp
  versioned := ⟨⟨"version", true, false⟩, by simp, rfl, rfl⟩
  version_integer := by simp
  version_field f hf hcolumn := by
    obtain rfl := List.mem_singleton.1 hf
    rfl
  version_omitted := by simp
  version_primary := by simp [versionColumn]

/-- The document "a", at version 1. -/
def document : Start documents where
  row c := if c = "version" then .int 1 else if c = "name" then .text "a" else .int 7
  typed := ⟨rfl, by simp [IntKind.Holds, documents, versionOf, versionColumn]⟩

/-- A request that names the document "a" and expects version 2. -/
def nameA : Body := ⟨[("version", .number 2), ("name", .text "a")], by decide⟩

/-- A request that names the document "b". -/
def nameB : Body := ⟨[("name", .text "b")], by decide⟩

/-- The document gets version 2 while the request that expects it is under way: the other request names
it "b". -/
def staleSnapshot : List (Event Bool) :=
  [.load false nameA, .load true nameB, .update true true, .update false true]

/-- The row after the first three steps. -/
def renamed : Row :=
  (commit textLibrary documents ⟨nameB, document.row⟩ document.row).getD document.row

theorem run_renamed : ∃ s : Server Bool,
    Run (Step textLibrary documents) document.server (staleSnapshot.take 3) s ∧ s.row = renamed ∧
      s.pending false = some ⟨nameA, document.row⟩ :=
  ⟨_, .cons ⟨rfl, rfl⟩ (.cons ⟨rfl, rfl⟩ (.cons ⟨⟨nameB, document.row⟩, rfl, rfl⟩ (.nil _))), rfl, rfl⟩

end Gombit.Admin
