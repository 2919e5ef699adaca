import Gombit.Migrations.Renames
import Mathlib.Data.List.Sort
import Mathlib.Data.Char
import Mathlib.Data.List.Lex

/-!
# Acknowledged changes

A migration is classified into steps, from the difference of the schemas before and after it and from
its statements (`withStatementFindings`). `Gate` accepts one whose destructive and unsafe steps are all
acknowledged. Their IDs are written into the file as directives (`withAllowDirectives`), from which
`Lint` reads what is acknowledged (`allowDirectives`).

* `splitStatements_withAllowDirectives`: directives are comments, so the statements stay as they were.
* `mem_withAllowDirectives`: the file acknowledges what it did before and the IDs, trimmed.
* `lint_accepts_iff`: `Lint` accepts what `Gate` has accepted unless an ID has white space at its end;
  `lint_refuses` is a unique index with such a name.
-/

namespace Gombit.Migrations

open List
open Gombit.Manifest (splitStatements splitStatements_comment)

/-! ## Steps -/

instance : LawfulBEq Name := inferInstance

/-- `Severity`. -/
inductive Severity
  | safe
  | review
  | unsafeChange
  | destructive
  deriving DecidableEq

/-- The codes of steps. -/
inductive StepCode
  | addTable | dropTable | addColumn | dropColumn | addNotNull | setNotNull | dropNotNull | narrowType
  | changeType | widenType | changeDefault | addIndex | dropIndex | addUnique | addForeignKey
  | dropForeignKey | changeForeignKey | addCheck | dropCheck | changePrimaryKey | tableRebuild
  | changeCharset | changeCollation | changeComment | changeGenerated | renameIndex
  | renameForeignKey | renameCheck | other | renameTable | renameColumn | dataChange | alterColumn
  | unclassifiedSQL
  deriving DecidableEq

def StepCode.text (c : StepCode) : List Char :=
  String.toList <| match c with
    | addTable => "add_table"
    | dropTable => "drop_table"
    | addColumn => "add_column"
    | dropColumn => "drop_column"
    | addNotNull => "add_not_null"
    | setNotNull => "set_not_null"
    | dropNotNull => "drop_not_null"
    | narrowType => "narrow_type"
    | changeType => "change_type"
    | widenType => "widen_type"
    | changeDefault => "change_default"
    | addIndex => "add_index"
    | dropIndex => "drop_index"
    | addUnique => "add_unique"
    | addForeignKey => "add_foreign_key"
    | dropForeignKey => "drop_foreign_key"
    | changeForeignKey => "change_foreign_key"
    | addCheck => "add_check"
    | dropCheck => "drop_check"
    | changePrimaryKey => "change_primary_key"
    | tableRebuild => "table_rebuild"
    | changeCharset => "change_charset"
    | changeCollation => "change_collation"
    | changeComment => "change_comment"
    | changeGenerated => "change_generated"
    | renameIndex => "rename_index"
    | renameForeignKey => "rename_foreign_key"
    | renameCheck => "rename_check"
    | other => "other"
    | renameTable => "rename_table"
    | renameColumn => "rename_column"
    | dataChange => "data_change"
    | alterColumn => "alter_column"
    | unclassifiedSQL => "unclassified_sql"

/-- `PlanStep`, as `newStep` makes it. -/
structure PlanStep where
  code : StepCode
  severity : Severity
  table : Name
  name : Name
  createdInPlan : List Name := []
  /-- `from`, of a renamed table. -/
  renamedFrom : Name := []
  deriving DecidableEq

/-- The field `ID`. -/
def PlanStep.id (s : PlanStep) : List Char :=
  s.code.text ++ ':' :: (s.table ++ if s.name = [] then [] else '.' :: s.name)

/-- The steps that have to be acknowledged. -/
def PlanStep.grave (s : PlanStep) : Bool := s.severity = .destructive || s.severity = .unsafeChange

/-- `classifyTable`, of an `AddIndex`. On MySQL its key may be too long; over columns that the same
change adds and leaves null, nothing can collide. -/
def classifyAddIndex (driver : DatabaseDriver) (keyTooLong onlyNullFilled unique : Bool)
    (table index : Name) : PlanStep :=
  let code := if unique then .addUnique else .addIndex
  if driver = .mysql ∧ keyTooLong then ⟨code, .unsafeChange, table, index, [], []⟩
  else if unique ∧ ¬onlyNullFilled then ⟨code, .unsafeChange, table, index, [], []⟩
  else ⟨code, .safe, table, index, [], []⟩

/-! ## What the statements do -/

/-- `alterAction`. -/
inductive AlterAction
  | other
  | dropColumn (column : Name)
  | alterColumn (column : Name) (rewrite : Bool)
  | unknownDrop

/-- `manifest.Operation`: the table of a `DROP TABLE`, and whether it is a data loss. -/
structure Operation where
  dropTable : Option Name
  dataLoss : Bool

/-- What the patterns of `lint.go` and `manifest/classify.go` read in a statement. They begin with the
words of the statements they are for, so a `CREATE UNIQUE INDEX` is neither a copy, an upsert nor an
`ALTER TABLE`, and no data loss. -/
structure Patterns (Realm : Type*) where
  /-- Given the columns `table.column` that are added, and those whose default or null changes. -/
  rebuildCopySource : List Char → Realm → List Name → List Name → Option Name
  upsertTable : List Char → Option Name
  /-- `reAlterTableBody`, with `classifyAction` of each of the `splitActions`. -/
  alterActions : List Char → Option (Name × List AlterAction)
  classifyStatement : List Char → Operation
  /-- `reDataChangeTable`. -/
  dataChangeTable : List Char → Option Name
  createUniqueIndex : ∀ stmt create unique index name rest,
    words stmt = create :: unique :: index :: name :: rest → isKeyword "CREATE" create = true →
    isKeyword "UNIQUE" unique = true → isKeyword "INDEX" index = true →
    (∀ desired added changed, rebuildCopySource stmt desired added changed = none) ∧
      upsertTable stmt = none ∧ alterActions stmt = none ∧ (classifyStatement stmt).dataLoss = false

variable {Realm : Type*}

/-- The column of a step. -/
def PlanStep.column (s : PlanStep) : Name := s.table ++ '.' :: s.name

/-- The state of the loop of `withStatementFindings`: the rebuild copies with the number of their
statement, the dropped tables and the steps found. -/
structure Findings where
  copies : List (Name × ℕ)
  dropped : List Name
  found : List PlanStep

def statementName (i : ℕ) : Name := s!"statement_{i + 1}".toList

section Findings

variable (pat : Patterns Realm) (steps : List PlanStep) (stmts : List (List Char)) (desired : Realm)

/-- `add`: a step with an ID that is not there yet. -/
def addStep (found : List PlanStep) (s : PlanStep) : List PlanStep :=
  if s.id ∈ (steps ++ found).map PlanStep.id then found else found ++ [s]

/-- `exemptDrop`: the drop between the copy and the rename of a rebuild that a step accounts for. -/
def exemptDrop (copies : List (Name × ℕ)) (i : ℕ) (table : Name) : Bool :=
  (copies.lookup table).any (fun c => c + 1 = i) &&
    steps.any (fun s => s.table = table && (s.code = .tableRebuild || s.grave)) &&
    (stmts[i + 1]?.bind reRenameTableTo).any fun (t, n) =>
      unquote t = "new_".toList ++ table && unquote n = table

/-- The step for an action of an `ALTER TABLE`. An alteration without a rewrite is explained by a step
for its column. -/
def actionStep (i : ℕ) (table : Name) : AlterAction → Option PlanStep
  | .other => none
  | .dropColumn column => some ⟨.dropColumn, .destructive, table, column, [], []⟩
  | .alterColumn column rewrite =>
    if rewrite then some ⟨.alterColumn, .destructive, table, column, [], []⟩
    else if steps.any fun s => s.name ≠ [] && s.column = table ++ '.' :: column then none
    else some ⟨.alterColumn, .unsafeChange, table, column, [], []⟩
  | .unknownDrop => some ⟨.unclassifiedSQL, .destructive, statementName i, [], [], []⟩

/-- One turn of the loop of `withStatementFindings`. -/
def readStatement (st : Findings) (stmt : List Char) (i : ℕ) : Findings :=
  let added := (steps.filter fun s => s.code = .addColumn || s.code = .addNotNull).map PlanStep.column
  let changed := (steps.filter fun s => s.code = .changeDefault || s.code = .setNotNull).map
    PlanStep.column
  let copies := match pat.rebuildCopySource stmt desired added changed with
    | some source => (source, i) :: st.copies
    | none => st.copies
  let add := addStep steps st.found
  match pat.upsertTable stmt with
  | some table =>
    ⟨copies, st.dropped, add ⟨.dataChange, .destructive, table, statementName i, [], []⟩⟩
  | none =>
    match pat.alterActions stmt with
    | some (table, actions) =>
      ⟨copies, st.dropped, (actions.filterMap (actionStep steps i table)).foldl (addStep steps) st.found⟩
    | none =>
      let op := pat.classifyStatement stmt
      if op.dataLoss = false then ⟨copies, st.dropped, st.found⟩
      else
        match op.dropTable with
        | some table =>
          if exemptDrop steps stmts copies i table then
            ⟨copies.filter fun c => c.1 ≠ table, st.dropped, st.found⟩
          else
            ⟨copies, table :: st.dropped, add ⟨.dropTable, .destructive, table, [], [], []⟩⟩
        | none =>
          match pat.dataChangeTable stmt with
          | some table =>
            ⟨copies, st.dropped, add ⟨.dataChange, .destructive, table, statementName i, [], []⟩⟩
          | none =>
            ⟨copies, st.dropped, add ⟨.unclassifiedSQL, .destructive, statementName i, [], [], []⟩⟩

/-- `withStatementFindings`: a declared rename of a table that is dropped keeps nothing. -/
def withStatementFindings : List PlanStep :=
  let st := stmts.zipIdx.foldl (fun st x => readStatement pat steps stmts desired st x.1 x.2) ⟨[], [], []⟩
  steps.filter (fun s =>
    !(s.code = .renameTable && (s.table ∈ st.dropped || s.renamedFrom ∈ st.dropped))) ++ st.found

end Findings

/-- The classification for a driver and a pair of schemas. `buildWithRenames` gives the steps of their
difference and the schema after the migration; it may fail. -/
structure Classifier (Realm : Type*) where
  buildWithRenames : List DeclaredRename → Option (List PlanStep × Realm)
  patterns : Patterns Realm

/-- The steps of a migration, as `buildMigration` and `Lint` find them. -/
def Classifier.steps (k : Classifier Realm) (sql : List Char) : Option (List PlanStep) :=
  (k.buildWithRenames (declaredRenames sql)).map fun (steps, desired) =>
    withStatementFindings k.patterns steps (splitStatements sql) desired

/-! ## Gate and lint -/

/-- `Acknowledge`, for one step. -/
def acknowledged (forgotten : List Name) (allow : List (List Char)) (s : PlanStep) : Bool :=
  s.id ∈ allow.map trimRunes || s.code.text ∈ allow.map trimRunes ||
    (s.code = .dropTable && s.table ∈ forgotten && s.createdInPlan.isEmpty)

/-- `Unacknowledged`, after `Acknowledge`. -/
def unacknowledged (forgotten : List Name) (allow : List (List Char)) (steps : List PlanStep) :
    List PlanStep := steps.filter fun s => s.grave && !acknowledged forgotten allow s

/-- `Gate`: the acknowledged IDs, `none` if the migration is refused. -/
def gate (k : Classifier Realm) (forgotten : List Name) (allow : List (List Char)) (sql : List Char) :
    Option (List (List Char)) :=
  (k.steps sql).bind fun steps =>
    if unacknowledged forgotten allow steps = [] then
      some ((steps.filter fun s => acknowledged forgotten allow s && s.grave).map PlanStep.id)
    else none

/-! ## Directives -/

def allowDirective : List Char := "-- gombit:allow ".toList

/-- What a line acknowledges. -/
def directive (line : List Char) : Option (List Char) :=
  if allowDirective.isPrefixOf (trimRunes line) then
    let id := trimRunes ((trimRunes line).drop allowDirective.length)
    if id = [] then none else some id
  else none

/-- `AllowDirectives`. -/
def allowDirectives (sql : List Char) : List (List Char) := (sql.splitOn '\n').filterMap directive

/-- The loop of `withAllowDirectives`. -/
def directiveLines : List (List Char) → List (List Char) → List Char
  | _, [] => []
  | seen, id :: ids =>
    if id ∈ seen then directiveLines seen ids
    else allowDirective ++ id ++ '\n' :: directiveLines (id :: seen) ids

/-- `withAllowDirectives`. -/
def withAllowDirectives (sql : List Char) (ids : List (List Char)) : List Char :=
  directiveLines (allowDirectives sql) (ids.insertionSort (· ≤ ·)) ++ sql

/-- The steps that `Lint` finds unacknowledged in a file; `none` stands for an error. -/
def lint (k : Classifier Realm) (sql : List Char) : Option (List PlanStep) :=
  (k.steps sql).map (unacknowledged [] (allowDirectives sql))

/-! ## Reading the directives -/

variable {id : List Char}

theorem allowDirective_cons : allowDirective = '-' :: '-' :: " gombit:allow ".toList := by decide

variable {x sql : List Char}

theorem mem_directive {line : List Char} : x ∈ directive line ↔
    allowDirective <+: trimRunes line ∧ x ≠ [] ∧
      trimRunes ((trimRunes line).drop allowDirective.length) = x := by
  rw [← List.isPrefixOf_iff_prefix, directive]
  grind

/-- **A directive acknowledges its text, trimmed.** -/
theorem mem_directive_allow : x ∈ directive (allowDirective ++ id) ↔ x ≠ [] ∧ trimRunes id = x := by
  by_cases hs : Spaces id
  · -- Without a text the blank of the directive is trimmed as well.
    have hid : trimRunes id = [] := trimRunes_append_spaces [] hs
    have hline : ¬ allowDirective <+: trimRunes allowDirective := by decide +kernel
    rw [mem_directive, trimRunes_append_spaces _ hs, hid]
    exact ⟨fun h => absurd h.1 hline, fun h => absurd h.2.symm h.1⟩
  · have hline : trimRunes (allowDirective ++ id) = allowDirective ++ id.rdropWhile isSpaceRune := by
      rw [allowDirective_cons, cons_append, trimRunes_cons (by decide), rdropWhile_append,
        if_neg (mt rdropWhile_eq_nil_iff.1 hs), ← cons_append]
    obtain ⟨ws, hws, heq⟩ := exists_spaces id
    rw [mem_directive, hline, drop_left, ← trimRunes_append_spaces _ hws, ← heq]
    exact and_iff_right (prefix_append _ _)

theorem trimRunes_of_mem (h : x ∈ allowDirectives sql) : trimRunes x = x := by
  obtain ⟨line, -, hline⟩ := mem_filterMap.1 h
  rw [← (mem_directive.1 hline).2.2, trimRunes_trimRunes]

theorem mem_directiveLines {seen ids : List (List Char)} (hids : ∀ id ∈ ids, '\n' ∉ id) :
    x ∈ allowDirectives (directiveLines seen ids ++ sql) ↔
      x ∈ allowDirectives sql ∨ ∃ id ∈ ids, id ∉ seen ∧ x ≠ [] ∧ trimRunes id = x := by
  induction ids generalizing seen with
  | nil => simp [directiveLines]
  | cons id ids ih =>
    obtain ⟨hid, hids⟩ := forall_mem_cons.1 hids
    rw [directiveLines]
    split
    · rw [ih hids]
      grind
    · have hline : '\n' ∉ allowDirective ++ id := not_mem_append (by decide) hid
      have hcons : x ∈ allowDirectives (allowDirective ++ id ++ '\n' ::
          (directiveLines (id :: seen) ids ++ sql)) ↔ x ∈ directive (allowDirective ++ id) ∨
            x ∈ allowDirectives (directiveLines (id :: seen) ids ++ sql) := by
        rw [allowDirectives, splitOn_append_cons_self_of_not_mem hline, ← singleton_append,
          filterMap_append, mem_append]
        simp [allowDirectives]
      rw [append_assoc, cons_append, hcons, mem_directive_allow, ih hids]
      grind

section Written

variable {sql : List Char} {ids : List (List Char)} (hids : ∀ id ∈ ids, '\n' ∉ id)
include hids

/-- **The file acknowledges what it did before and the IDs, trimmed.** -/
theorem mem_withAllowDirectives :
    x ∈ allowDirectives (withAllowDirectives sql ids) ↔
      x ∈ allowDirectives sql ∨ ∃ id ∈ ids, x ≠ [] ∧ trimRunes id = x := by
  rw [withAllowDirectives, mem_directiveLines fun id hid => hids id ((mem_insertionSort _).1 hid)]
  simp only [mem_insertionSort]
  constructor
  · rintro (h | ⟨i, hi, -, hx⟩)
    · exact .inl h
    · exact .inr ⟨i, hi, hx⟩
  · rintro (h | ⟨i, hi, hx⟩)
    · exact .inl h
    · by_cases hseen : i ∈ allowDirectives sql
      · exact .inl (hx.2.symm.trans (trimRunes_of_mem hseen) ▸ hseen)
      · exact .inr ⟨i, hi, hseen, hx⟩

/-- **Directives are not statements.** -/
theorem splitStatements_withAllowDirectives :
    splitStatements (withAllowDirectives sql ids) = splitStatements sql := by
  have hlines : ∀ (seen ids : List (List Char)), (∀ id ∈ ids, '\n' ∉ id) →
      splitStatements (directiveLines seen ids ++ sql) = splitStatements sql := by
    intro seen ids hids
    induction ids generalizing seen with
    | nil => rfl
    | cons id ids ih =>
      obtain ⟨hid, hids⟩ := forall_mem_cons.1 hids
      rw [directiveLines]
      split
      · exact ih seen hids
      · rw [append_assoc, cons_append]
        have hline : '\n' ∉ " gombit:allow ".toList ++ id := not_mem_append (by decide) hid
        rw [allowDirective_cons]
        exact (splitStatements_comment hline _).trans (ih _ hids)
  exact hlines _ _ fun id hid => hids id ((mem_insertionSort _).1 hid)

theorem steps_withAllowDirectives (k : Classifier Realm) :
    k.steps (withAllowDirectives sql ids) = k.steps sql := by
  rw [Classifier.steps, Classifier.steps, declaredRenames, declaredRenames,
    splitStatements_withAllowDirectives hids]

end Written

/-! ## What lint accepts -/

theorem colon_notMem_text (c : StepCode) : ':' ∉ c.text := by
  cases c <;> decide

theorem unacknowledged_eq_nil {forgotten : List Name} {allow : List (List Char)}
    {steps : List PlanStep} : unacknowledged forgotten allow steps = [] ↔
      ∀ s ∈ steps, s.grave = true → acknowledged forgotten allow s = true := by
  rw [unacknowledged, filter_eq_nil_iff]
  simp

/-- `Gate` returns the IDs of all grave steps. -/
theorem gate_eq_some {k : Classifier Realm} {forgotten : List Name} {allow ids : List (List Char)}
    (h : gate k forgotten allow sql = some ids) : ∃ steps,
      k.steps sql = some steps ∧ ∀ id, id ∈ ids ↔ ∃ s ∈ steps, s.grave = true ∧ s.id = id := by
  obtain ⟨steps, hsteps, haccepted⟩ := Option.bind_eq_some_iff.1 h
  obtain ⟨hnone, heq⟩ := Option.ite_none_right_eq_some.1 haccepted
  cases heq
  refine ⟨steps, hsteps, fun id => ?_⟩
  rw [unacknowledged_eq_nil] at hnone
  simp only [mem_map, mem_filter, Bool.and_eq_true]
  grind

/-- **`Lint` accepts what `Gate` has accepted, unless an ID has white space at its end**: for a
migration that is accepted, whose IDs have no line break, the directives change neither the statements
nor the steps, and no step is left unacknowledged exactly if the ID of every grave step is trimmed or
the file acknowledged its code before. -/
theorem lint_accepts_iff (k : Classifier Realm) (forgotten : List Name) (allow : List (List Char))
    (sql : List Char) (ids : List (List Char)) (hgate : gate k forgotten allow sql = some ids)
    (hids : ∀ id ∈ ids, '\n' ∉ id) :
    (splitStatements (withAllowDirectives sql ids) = splitStatements sql ∧
      k.steps (withAllowDirectives sql ids) = k.steps sql ∧
      lint k (withAllowDirectives sql ids) = some []) ↔
    ∀ steps, k.steps sql = some steps → ∀ s ∈ steps, s.grave = true →
      trimRunes s.id = s.id ∨ s.code.text ∈ allowDirectives sql := by
  have hstmts : splitStatements (withAllowDirectives sql ids) = splitStatements sql :=
    splitStatements_withAllowDirectives hids
  have hsame : k.steps (withAllowDirectives sql ids) = k.steps sql := steps_withAllowDirectives hids k
  obtain ⟨steps, hsteps, hmem⟩ := gate_eq_some hgate
  have hcolon : ∀ s : PlanStep, ':' ∈ trimRunes s.id := fun s =>
    mem_trimRunes (by decide) (mem_append_right _ mem_cons_self)
  -- A grave step is acknowledged by its ID if that is read back as it is, or by its code.
  have hack : ∀ s ∈ steps, s.grave = true →
      (acknowledged [] (allowDirectives (withAllowDirectives sql ids)) s = true ↔
        trimRunes s.id = s.id ∨ s.code.text ∈ allowDirectives sql) := by
    intro s hs hgrave
    have hmap : ∀ file : List Char, (allowDirectives file).map trimRunes = allowDirectives file :=
      fun file => (map_congr_left fun x hx => trimRunes_of_mem hx).trans (map_id _)
    simp only [acknowledged, hmap, not_mem_nil, decide_false, Bool.and_false, Bool.false_and,
      Bool.or_false, Bool.or_eq_true, decide_eq_true_eq]
    refine or_congr ⟨trimRunes_of_mem, fun htrim => ?_⟩ ?_
    · exact (mem_withAllowDirectives hids).2
        (.inr ⟨s.id, (hmem _).2 ⟨s, hs, hgrave, rfl⟩, by simp [PlanStep.id], htrim⟩)
    · rw [mem_withAllowDirectives hids, or_iff_left]
      rintro ⟨id, hid, -, htrim⟩
      obtain ⟨t, -, -, rfl⟩ := (hmem id).1 hid
      exact colon_notMem_text s.code (htrim ▸ hcolon t)
  rw [lint, hsame, hsteps, Option.map_some]
  simp only [Option.some.injEq, unacknowledged_eq_nil]
  constructor
  · rintro ⟨-, -, hlint⟩ _ rfl s hs hgrave
    exact (hack s hs hgrave).1 (hlint s hs hgrave)
  · exact fun hall => ⟨hstmts, trivial, fun s hs hgrave => (hack s hs hgrave).2 (hall _ rfl s hs hgrave)⟩

/-! ## An index whose name ends in a blank -/

/-- The step of a unique index on `products`. -/
def uniqueStep (index : Name) : PlanStep :=
  classifyAddIndex .postgres false false true "products".toList index

/-- A PostgreSQL schema that gets the index, and nothing else. -/
def addUnique (pat : Patterns Unit) (index : Name) : Classifier Unit where
  buildWithRenames renames := if renames = [] then some ([uniqueStep index], ()) else none
  patterns := pat

/-- The migration that adds it. -/
def createUnique (index : Name) : List Char :=
  "CREATE UNIQUE INDEX \"".toList ++ index ++ "\" ON \"products\" (\"sku\");".toList

/-- The statement is no finding: the index is the only step. -/
theorem steps_addUnique (pat : Patterns Unit) {index : Name} (stmt name : List Char)
    (rest : List (List Char)) (hrenames : declaredRenames (createUnique index) = [])
    (hsplit : splitStatements (createUnique index) = [stmt])
    (hwords : words stmt = "CREATE".toList :: "UNIQUE".toList :: "INDEX".toList :: name :: rest) :
    (addUnique pat index).steps (createUnique index) = some [uniqueStep index] := by
  obtain ⟨hcopy, hupsert, halter, hloss⟩ :=
    pat.createUniqueIndex stmt _ _ _ name rest hwords (by decide) (by decide) (by decide)
  simp [Classifier.steps, addUnique, hrenames, hsplit, withStatementFindings, readStatement, hcopy,
    hupsert, halter, hloss]


theorem steps_sku (pat : Patterns Unit) :
    (addUnique pat "sku".toList).steps (createUnique "sku".toList) = some [uniqueStep "sku".toList] :=
  steps_addUnique pat (createUnique "sku".toList).dropLast "\"sku\"".toList
    ["ON".toList, "\"products\"".toList, "(\"sku\")".toList] (by decide +kernel) (by decide +kernel)
    (by decide +kernel)

theorem steps_sku_blank (pat : Patterns Unit) :
    (addUnique pat "sku ".toList).steps (createUnique "sku ".toList) =
      some [uniqueStep "sku ".toList] :=
  steps_addUnique pat (createUnique "sku ".toList).dropLast "\"sku".toList
    ["\"".toList, "ON".toList, "\"products\"".toList, "(\"sku\")".toList] (by decide +kernel)
    (by decide +kernel) (by decide +kernel)

/-- Patterns that know a `CREATE UNIQUE INDEX` and take all else for a data loss. -/
def indexPatterns : Patterns Unit where
  rebuildCopySource _ _ _ _ := none
  upsertTable _ := none
  alterActions _ := none
  classifyStatement stmt := match words stmt with
    | create :: unique :: index :: _ :: _ =>
      ⟨none, !(isKeyword "CREATE" create && isKeyword "UNIQUE" unique && isKeyword "INDEX" index)⟩
    | _ => ⟨none, true⟩
  dataChangeTable _ := none
  createUniqueIndex := by
    intro stmt create unique index name rest hwords hcreate hunique hindex
    simp [hwords, hcreate, hunique, hindex]

/-- The index `sku` is accepted by its code, and by `Lint`. -/
theorem lint_accepts_sku : lint (addUnique indexPatterns "sku".toList) (withAllowDirectives
    (createUnique "sku".toList) [(uniqueStep "sku".toList).id]) = some [] := by
  have hgate : gate (addUnique indexPatterns "sku".toList) [] ["add_unique".toList]
      (createUnique "sku".toList) = some [(uniqueStep "sku".toList).id] := by
    rw [gate, steps_sku]
    decide +kernel
  refine ((lint_accepts_iff _ _ _ _ _ hgate (by decide +kernel)).2 ?_).2.2
  intro steps hsteps s hs _
  rw [steps_sku] at hsteps
  cases hsteps
  rw [mem_singleton.1 hs]
  exact .inl (by decide +kernel)

/-- Whatever the other patterns match, an index whose name ends in a blank is accepted by its code, and
refused by `Lint`. -/
theorem gate_lint_blank (pat : Patterns Unit) :
    gate (addUnique pat "sku ".toList) [] ["add_unique".toList] (createUnique "sku ".toList) =
        some [(uniqueStep "sku ".toList).id] ∧
      lint (addUnique pat "sku ".toList) (withAllowDirectives (createUnique "sku ".toList)
        [(uniqueStep "sku ".toList).id]) = some [uniqueStep "sku ".toList] := by
  rw [gate, lint, steps_withAllowDirectives (by decide +kernel), steps_sku_blank]
  decide +kernel

/-- **The index `"sku "` is accepted by its code, and refused by `Lint`.** -/
theorem lint_refuses :
    gate (addUnique indexPatterns "sku ".toList) [] ["add_unique".toList]
        (createUnique "sku ".toList) = some [(uniqueStep "sku ".toList).id] ∧
      lint (addUnique indexPatterns "sku ".toList) (withAllowDirectives (createUnique "sku ".toList)
        [(uniqueStep "sku ".toList).id]) = some [uniqueStep "sku ".toList] :=
  gate_lint_blank indexPatterns

end Gombit.Migrations
