import Gombit.Foundations.Program
import Gombit.Manifest.SplitStatements
import Gombit.Migrations.ColumnTypes

/-!
# Rename migrations

A rename migration renames tables and then columns (`renameSQL`); its down file undoes the statements
in reverse order (`renameDownSQL`). For a set of renames that passes `validateRenameSet`:

* `statements_renameSQL`, `statements_renameDownSQL`: the statements that are read from the two files.
* `renameKey_symm`: a rename that succeeds is undone by the opposite rename, so a run is undone by the
  opposite renames in reverse order (`runActions_reverse`).
* `rename_undone`: running the down file gives back the schema, and `declaredRenames` reads the renames
  from the text.
-/

namespace Gombit.Migrations

open List
open Gombit.Manifest (splitStatements splitStatements_blank splitStatements_comment
  splitStatements_statement)

/-- The name of a table or column. -/
abbrev Name := List Char

/-- `Rename`, of a column. -/
structure Rename where
  table : Name
  oldColumn : Name
  newColumn : Name

/-- `TableRename`. -/
structure TableRename where
  old : Name
  new : Name

/-! ## Validation -/

/-- Letters, digits and underscore. -/
def isWordRune (c : Char) : Bool := c.isAlphanum || c = '_'

/-- `sqlIdentifierPattern`: `^[A-Za-z_][A-Za-z0-9_]*$`. -/
def isSqlIdentifier : Name → Bool
  | [] => false
  | c :: cs => (c.isAlpha || c = '_') && cs.all isWordRune

/-- The errors of `validateRenameSet`. -/
inductive RenameError
  /-- rename <what> <id> must be a simple identifier (letters, digits, underscore) -/
  | notIdentifier (what : String) (id : Name)
  /-- rename on table <table> has the same old and new column <column> -/
  | sameColumn (table column : Name)
  /-- table rename <id> must be a simple identifier (letters, digits, underscore) -/
  | tableNotIdentifier (id : Name)
  /-- table rename has the same old and new name <name> -/
  | sameTable (name : Name)
  /-- table <old> is renamed twice -/
  | renamedTwice (old : Name)
  /-- two tables are renamed to <new> -/
  | sameTarget (new : Name)
  /-- table rename <old>:<new> renames onto a table this run also renames -/
  | chained (old new : Name)
  /-- column rename <table>.<column> names table <table>, which this run renames -/
  | oldTable (table column : Name)

/-- `validateRename`. -/
def validateRename (r : Rename) : Except RenameError Unit :=
  if isSqlIdentifier r.table = false then .error (.notIdentifier "table" r.table)
  else if isSqlIdentifier r.oldColumn = false then .error (.notIdentifier "old column" r.oldColumn)
  else if isSqlIdentifier r.newColumn = false then .error (.notIdentifier "new column" r.newColumn)
  else if r.oldColumn = r.newColumn then .error (.sameColumn r.table r.oldColumn)
  else .ok ()

/-- `validateTableRename`. -/
def validateTableRename (r : TableRename) : Except RenameError Unit :=
  if isSqlIdentifier r.old = false then .error (.tableNotIdentifier r.old)
  else if isSqlIdentifier r.new = false then .error (.tableNotIdentifier r.new)
  else if r.old = r.new then .error (.sameTable r.old)
  else .ok ()

/-- One turn of the first loop of `validateRenameSet`, with the old and new names so far. -/
def validateTable (seen : List Name × List Name) (t : TableRename) :
    Except RenameError (List Name × List Name) :=
  (validateTableRename t).bind fun _ =>
    if t.old ∈ seen.1 then .error (.renamedTwice t.old)
    else if t.new ∈ seen.2 then .error (.sameTarget t.new)
    else .ok (t.old :: seen.1, t.new :: seen.2)

/-- One turn of the second loop of `validateRenameSet`. -/
def validateChain (olds : List Name) (t : TableRename) : Except RenameError Unit :=
  if t.new ∈ olds then .error (.chained t.old t.new) else .ok ()

/-- One turn of the third loop of `validateRenameSet`. -/
def validateColumn (olds news : List Name) (c : Rename) : Except RenameError Unit :=
  (validateRename c).bind fun _ =>
    if c.table ∈ olds ∧ c.table ∉ news then .error (.oldTable c.table c.oldColumn) else .ok ()

/-- `validateRenameSet`. -/
def validateRenameSet (tables : List TableRename) (columns : List Rename) : Except RenameError Unit :=
  (tables.foldlM validateTable ([], [])).bind fun seen =>
    (tables.foldlM (fun _ => validateChain seen.1) ()).bind fun _ =>
      columns.foldlM (fun _ => validateColumn seen.1 seen.2) ()

/-! ## The files -/

/-- The verb `%q` of package `fmt`, on the names that `validateRenameSet` accepts: an identifier has no
rune to escape. -/
def quoted (id : Name) : List Char := '"' :: id ++ ['"']

/-- The quote of an identifier. -/
def identQuote (driver : DatabaseDriver) : Char := if driver = .postgres then '"' else '\x60'

/-- `quoteRenameIdent`. -/
def quoteRenameIdent (driver : DatabaseDriver) (id : Name) : List Char :=
  identQuote driver :: id ++ [identQuote driver]

/-- What a statement renames. -/
inductive Action
  | renameTable (old new : Name)
  | renameColumn (table old new : Name)
  deriving DecidableEq

/-- The opposite rename. -/
def Action.undo : Action → Action
  | .renameTable old new => .renameTable new old
  | .renameColumn table old new => .renameColumn table new old

/-- The words of the statement of a rename. -/
def Action.words (driver : DatabaseDriver) : Action → List (List Char)
  | .renameTable old new =>
    ["ALTER".toList, "TABLE".toList, quoteRenameIdent driver old, "RENAME".toList, "TO".toList,
      quoteRenameIdent driver new]
  | .renameColumn table old new =>
    ["ALTER".toList, "TABLE".toList, quoteRenameIdent driver table, "RENAME".toList, "COLUMN".toList,
      quoteRenameIdent driver old, "TO".toList, quoteRenameIdent driver new]

/-- The statement of a rename: `ALTER TABLE … RENAME TO …` or `ALTER TABLE … RENAME COLUMN … TO …`. -/
def Action.statement (driver : DatabaseDriver) (a : Action) : List Char := [' '].intercalate (a.words driver)

def TableRename.action (t : TableRename) : Action := .renameTable t.old t.new

def Rename.action (r : Rename) : Action := .renameColumn r.table r.oldColumn r.newColumn

/-- A loop of `renameSQL`: for each rename a blank line unless it is the first of the file, a comment
and the statement. -/
def renameLines {α : Type} (comment statement : α → List Char) : Bool → List α → List Char
  | _, [] => []
  | first, x :: xs =>
    (if first then [] else ['\n']) ++ ("-- ".toList ++ comment x ++ '\n' :: (statement x ++ ';' :: '\n' ::
      renameLines comment statement false xs))

/-- The comment of a table rename. -/
def tableComment (t : TableRename) : List Char :=
  "Rename table ".toList ++ quoted t.old ++ " to ".toList ++ quoted t.new

/-- The comment of a column rename. -/
def columnComment (r : Rename) : List Char :=
  "Rename column ".toList ++ quoted r.oldColumn ++ " to ".toList ++ quoted r.newColumn ++
    " on table ".toList ++ quoted r.table

/-- `renameSQL`. -/
def renameSQL (driver : DatabaseDriver) (tables : List TableRename) (renames : List Rename) :
    List Char :=
  renameLines tableComment (fun t => t.action.statement driver) true tables ++
    renameLines columnComment (fun r => r.action.statement driver) tables.isEmpty renames

/-- `renameDownSQL`. -/
def renameDownSQL (driver : DatabaseDriver) (tables : List TableRename) (renames : List Rename) :
    List Char :=
  (renames.reverse.flatMap fun r => r.action.undo.statement driver ++ [';', '\n']) ++
    tables.reverse.flatMap fun t => t.action.undo.statement driver ++ [';', '\n']

/-! ## Reading the statements -/

/-- `\s`. -/
def isRegexSpace (c : Char) : Bool := c = ' ' || c = '\t' || c = '\n' || c = '\x0c' || c = '\r'

/-- The words of a text. -/
def words (s : List Char) : List (List Char) := (s.splitOnP isRegexSpace).filter fun w => w ≠ []

/-- The class `[A-Za-z0-9_]`, ignoring case: the long s and the Kelvin sign fold to letters. -/
def isFoldedWordRune (c : Char) : Bool := isWordRune c || c = 'ſ' || c = 'K'

def isQuoteRune (c : Char) : Bool := c = '\x60' || c = '"'

/-- A name with or without a quote before and after it. -/
def isIdentPart (p : List Char) : Bool :=
  let p := if p.head?.any isQuoteRune then p.tail else p
  let p := if p.getLast?.any isQuoteRune then p.dropLast else p
  p ≠ [] && p.all isFoldedWordRune

/-- The pattern `ident`: a name, with or without a schema before it. -/
def isIdent (w : List Char) : Bool :=
  match w.splitOn '.' with
  | [p] => isIdentPart p
  | [s, p] => isIdentPart s && isIdentPart p
  | _ => false

/-- A word that is a keyword, ignoring case. -/
def isKeyword (kw : String) (w : List Char) : Bool := w.map Char.toLower = kw.toList.map Char.toLower

/-- `reRenameColumn`: the names it captures. -/
def reRenameColumn (stmt : List Char) : Option (Name × Name × Name) :=
  match words stmt with
  | [alter, kwTable, t, rename, column, o, kwTo, n] =>
    if isKeyword "ALTER" alter && isKeyword "TABLE" kwTable && isIdent t && isKeyword "RENAME" rename &&
      isKeyword "COLUMN" column && isIdent o && isKeyword "TO" kwTo && isIdent n then some (t, o, n)
    else none
  | _ => none

/-- `reRenameTableTo`. -/
def reRenameTableTo (stmt : List Char) : Option (Name × Name) :=
  match words stmt with
  | [alter, kwTable, t, rename, kwTo, n] =>
    if isKeyword "ALTER" alter && isKeyword "TABLE" kwTable && isIdent t && isKeyword "RENAME" rename &&
      isKeyword "TO" kwTo && isIdent n then some (t, n)
    else none
  | _ => none

/-- `reRenameTableCmd`. -/
def reRenameTableCmd (stmt : List Char) : Option (Name × Name) :=
  match words stmt with
  | [rename, kwTable, t, kwTo, n] =>
    if isKeyword "RENAME" rename && isKeyword "TABLE" kwTable && isIdent t && isKeyword "TO" kwTo &&
      isIdent n then some (t, n)
    else none
  | _ => none

/-- `unquote`. -/
def unquote (id : List Char) : Name :=
  (((id.splitOn '.').getLastD []).dropWhile isQuoteRune).rdropWhile isQuoteRune

/-- `DeclaredRename`; the column is empty for a table. -/
structure DeclaredRename where
  table : Name
  column : Name
  /-- `To`. -/
  newName : Name
  deriving DecidableEq

/-- One statement of the loop of `DeclaredRenames`. -/
def declaredRename (stmt : List Char) : Option DeclaredRename :=
  match reRenameColumn stmt with
  | some (t, o, n) => some ⟨unquote t, unquote o, unquote n⟩
  | none =>
    match reRenameTableTo stmt with
    | some (t, n) => some ⟨unquote t, [], unquote n⟩
    | none => (reRenameTableCmd stmt).map fun p => ⟨unquote p.1, [], unquote p.2⟩

/-- `DeclaredRenames`. -/
def declaredRenames (sql : List Char) : List DeclaredRename :=
  (splitStatements sql).filterMap declaredRename

/-- The rename that an action declares. -/
def Action.declared : Action → DeclaredRename
  | .renameTable old new => ⟨old, [], new⟩
  | .renameColumn table old new => ⟨table, old, new⟩

/-! ## The database -/

/-- Entries by name, in order. -/
abbrev Named (α : Type*) := List (Name × α)

/-- Renames an entry; it fails if the old name is missing or the new one exists. -/
def renameKey {α : Type*} (old new : Name) (l : Named α) : Option (Named α) :=
  if old ∈ l.map Prod.fst ∧ new ∉ l.map Prod.fst then
    some (l.map fun e => (if e.1 = old then new else e.1, e.2))
  else none

/-- A schema: tables with their columns, and the data of each. -/
abbrev Schema (Data : Type*) := Named (Named Data)

/-- Runs a rename. -/
def Action.run {Data : Type*} : Action → Schema Data → Option (Schema Data)
  | .renameTable old new, s => renameKey old new s
  | .renameColumn table old new, s =>
    if table ∈ s.map Prod.fst then
      s.mapM fun e => if e.1 = table then (renameKey old new e.2).map (e.1, ·) else some e
    else none

/-- Runs renames in order. -/
def runActions {Data : Type*} (as : List Action) (s : Schema Data) : Option (Schema Data) :=
  as.foldlM (fun s a => a.run s) s

/-- An identifier between the quotes of the driver. -/
def readIdent (driver : DatabaseDriver) (w : List Char) : Option Name :=
  let id := w.tail.dropLast
  if w = quoteRenameIdent driver id ∧ identQuote driver ∉ id then some id else none

/-- How the database reads a statement. -/
def readAction (driver : DatabaseDriver) (stmt : List Char) : Option Action :=
  match words stmt with
  | [a, b, t, c, d, n] =>
    if a = "ALTER".toList ∧ b = "TABLE".toList ∧ c = "RENAME".toList ∧ d = "TO".toList then
      (readIdent driver t).bind fun t => (readIdent driver n).map fun n => .renameTable t n
    else none
  | [a, b, t, c, d, o, e, n] =>
    if a = "ALTER".toList ∧ b = "TABLE".toList ∧ c = "RENAME".toList ∧ d = "COLUMN".toList ∧
        e = "TO".toList then
      (readIdent driver t).bind fun t => (readIdent driver o).bind fun o =>
        (readIdent driver n).map fun n => .renameColumn t o n
    else none
  | _ => none

/-- Runs the statements of a file. -/
def runSQL {Data : Type*} (driver : DatabaseDriver) (sql : List Char) (s : Schema Data) :
    Option (Schema Data) :=
  ((splitStatements sql).mapM (readAction driver)).bind fun as => runActions as s

/-! ## Undoing a rename -/

/-- **A rename that succeeds is undone by the opposite one.** -/
theorem renameKey_symm {α : Type*} {old new : Name} {l l' : Named α} (h : renameKey old new l = some l') :
    renameKey new old l' = some l := by
  obtain ⟨⟨hold, hnew⟩, heq⟩ := Option.ite_none_right_eq_some.1 h
  cases heq
  have hne : old ≠ new := fun heq => hnew (heq ▸ hold)
  have hkeys : (l.map fun e => (if e.1 = old then new else e.1, e.2)).map Prod.fst =
      (l.map Prod.fst).map fun k => if k = old then new else k := by
    rw [map_map, map_map]
    rfl
  have hin : new ∈ (l.map Prod.fst).map fun k => if k = old then new else k :=
    mem_map.2 ⟨old, hold, if_pos rfl⟩
  have hout : old ∉ (l.map Prod.fst).map fun k => if k = old then new else k := by
    intro hmem
    obtain ⟨k, -, hk⟩ := mem_map.1 hmem
    split at hk
    · exact hne hk.symm
    · exact ‹¬ k = old› hk
  rw [renameKey, hkeys, if_pos ⟨hin, hout⟩, map_map]
  refine congrArg some ((map_congr_left fun e he => ?_).trans (map_id l))
  have hene : e.1 ≠ new := fun heq => hnew (heq ▸ mem_map_of_mem he)
  by_cases heq : e.1 = old
  · simp [heq]
    rw [← heq]
  · simp [heq, hene]

/-- A map that keeps the names and is undone entry by entry is undone. -/
theorem mapM_symm {α β : Type*} {f : Name × α → Option (Name × β)} {g : Name × β → Option (Name × α)}
    (h : ∀ a b, f a = some b → b.1 = a.1 ∧ g b = some a) {l : Named α} {l' : Named β}
    (hl : l.mapM f = some l') : l'.map Prod.fst = l.map Prod.fst ∧ l'.mapM g = some l := by
  induction l generalizing l' with
  | nil =>
    cases hl
    exact ⟨rfl, rfl⟩
  | cons a l ih =>
    rw [mapM_cons] at hl
    obtain ⟨b, hb, hl⟩ := Option.bind_eq_some_iff.1 hl
    obtain ⟨bs, hbs, hl⟩ := Option.bind_eq_some_iff.1 hl
    cases hl
    obtain ⟨hname, hback⟩ := h a b hb
    obtain ⟨hnames, hbacks⟩ := ih hbs
    rw [map_cons, map_cons, hname, hnames, mapM_cons, hback, hbacks]
    exact ⟨rfl, rfl⟩

variable {a : Action}

/-- **A statement that succeeds is undone by the opposite statement.** -/
theorem Action.run_undo {Data : Type*} {s s' : Schema Data} (h : a.run s = some s') :
    a.undo.run s' = some s := by
  cases a with
  | renameTable old new => exact renameKey_symm h
  | renameColumn table old new =>
    obtain ⟨htable, hmap⟩ := Option.ite_none_right_eq_some.1 h
    rw [Action.undo, Action.run, Option.ite_none_right_eq_some]
    refine (mapM_symm (fun e e' he => ?_) hmap).imp_left fun hkeys => by rwa [hkeys]
    split at he
    · rename_i hname
      obtain ⟨cols, hcols, rfl⟩ := Option.map_eq_some_iff.1 he
      rw [if_pos hname, renameKey_symm hcols]
      exact ⟨rfl, rfl⟩
    · rename_i hname
      cases he
      exact ⟨rfl, if_neg hname⟩

/-- **A run that succeeds is undone by the opposite statements in reverse order.** -/
theorem runActions_reverse {Data : Type*} {as : List Action} {s s' : Schema Data}
    (h : runActions as s = some s') : runActions (as.reverse.map Action.undo) s' = some s := by
  induction as generalizing s with
  | nil => exact congrArg some (Option.some.inj h).symm
  | cons a as ih =>
    rw [runActions, foldlM_cons] at h
    obtain ⟨mid, hmid, hrest⟩ := Option.bind_eq_some_iff.1 h
    have hundo := ih hrest
    rw [runActions] at hundo ⊢
    rw [reverse_cons, map_append, foldlM_append, hundo]
    change runActions [a.undo] mid = _
    rw [runActions, foldlM_cons, Action.run_undo hmid]
    rfl

/-! ## Names and statements -/

variable {id : Name}

theorem word_of_isSqlIdentifier (h : isSqlIdentifier id = true) :
    id ≠ [] ∧ ∀ c ∈ id, isWordRune c = true := by
  rcases id with _ | ⟨c, cs⟩
  · cases h
  · simp only [isSqlIdentifier, Bool.and_eq_true, all_eq_true] at h
    refine ⟨by simp, forall_mem_cons.2 ⟨?_, h.2⟩⟩
    have hc := h.1
    simp only [isWordRune, Char.isAlphanum, Bool.or_eq_true] at hc ⊢
    exact hc.imp_left .inl

theorem ne_of_isWordRune {c d : Char} (h : isWordRune c = true) (hd : isWordRune d = false) : c ≠ d := by
  rintro rfl
  rw [h] at hd
  cases hd

/-- The names of an action are identifiers. -/
def Action.Valid : Action → Prop
  | .renameTable old new => isSqlIdentifier old = true ∧ isSqlIdentifier new = true
  | .renameColumn table old new =>
    isSqlIdentifier table = true ∧ isSqlIdentifier old = true ∧ isSqlIdentifier new = true

theorem Action.Valid.undo (h : a.Valid) : a.undo.Valid := by
  cases a with
  | renameTable old new => exact h.symm
  | renameColumn table old new => exact ⟨h.1, h.2.2, h.2.1⟩

/-- A word of a statement. -/
def IsStatementWord (w : List Char) : Prop :=
  w ≠ [] ∧ ∀ c ∈ w, isWordRune c = true ∨ isQuoteRune c = true

variable (driver : DatabaseDriver)

theorem isQuoteRune_identQuote : isQuoteRune (identQuote driver) = true := by
  cases driver <;> decide

theorem isStatementWord_quote (h : isSqlIdentifier id = true) :
    IsStatementWord (quoteRenameIdent driver id) := by
  refine ⟨by simp [quoteRenameIdent], fun c hc => ?_⟩
  simp only [quoteRenameIdent, cons_append, mem_cons, mem_append, not_mem_nil,
    or_false] at hc
  rcases hc with rfl | hc | rfl
  · exact .inr (isQuoteRune_identQuote driver)
  · exact .inl ((word_of_isSqlIdentifier h).2 c hc)
  · exact .inr (isQuoteRune_identQuote driver)

theorem isStatementWord_of_all {w : List Char} (hne : w ≠ [])
    (h : (w.all fun c => isWordRune c || isQuoteRune c) = true) : IsStatementWord w :=
  ⟨hne, fun c hc => by simpa using all_eq_true.1 h c hc⟩

theorem isStatementWord_of_mem (h : a.Valid) : ∀ w ∈ a.words driver, IsStatementWord w := by
  intro w hw
  cases a with
  | renameTable old new =>
    simp only [Action.words, mem_cons, not_mem_nil, or_false] at hw
    rcases hw with rfl | rfl | rfl | rfl | rfl | rfl
    all_goals first | exact isStatementWord_of_all (by decide) (by decide) | skip
    · exact isStatementWord_quote driver h.1
    · exact isStatementWord_quote driver h.2
  | renameColumn table old new =>
    simp only [Action.words, mem_cons, not_mem_nil, or_false] at hw
    rcases hw with rfl | rfl | rfl | rfl | rfl | rfl | rfl | rfl
    all_goals first | exact isStatementWord_of_all (by decide) (by decide) | skip
    · exact isStatementWord_quote driver h.1
    · exact isStatementWord_quote driver h.2.1
    · exact isStatementWord_quote driver h.2.2

/-- Words joined by blanks are read back. -/
theorem words_intercalate {ws : List (List Char)}
    (h : ∀ w ∈ ws, w ≠ [] ∧ ∀ c ∈ w, isRegexSpace c = false) : words ([' '].intercalate ws) = ws := by
  have hone : ∀ {w : List Char}, w ≠ [] ∧ (∀ c ∈ w, isRegexSpace c = false) →
      (w.splitOnP isRegexSpace).filter (fun w => w ≠ []) = [w] := fun {w} hw => by
    rw [splitOnP_eq_singleton hw.2, filter_cons_of_pos (by simpa using hw.1), filter_nil]
  induction ws with
  | nil => rfl
  | cons w ws ih =>
    obtain ⟨hw, hws⟩ := forall_mem_cons.1 h
    rcases ws with _ | ⟨v, ws⟩
    · rw [intercalate_singleton, words, hone hw]
    · rw [intercalate_cons_cons, append_assoc, singleton_append, words,
        splitOnP_append_cons _ _ (by decide), filter_append, hone hw, ← words, ih hws,
        singleton_append]

theorem words_statement (h : a.Valid) : words (a.statement driver) = a.words driver := by
  refine words_intercalate fun w hw => ?_
  obtain ⟨hne, hrunes⟩ := isStatementWord_of_mem driver h w hw
  refine ⟨hne, fun c hc => ?_⟩
  by_contra hspace
  simp only [Bool.not_eq_false, isRegexSpace, Bool.or_eq_true, decide_eq_true_eq] at hspace
  have := hrunes c hc
  rcases hspace with (((rfl | rfl) | rfl) | rfl) | rfl <;> revert this <;> decide

theorem readIdent_quote (h : isSqlIdentifier id = true) :
    readIdent driver (quoteRenameIdent driver id) = some id := by
  have hinner : (quoteRenameIdent driver id).tail.dropLast = id := by
    simp [quoteRenameIdent]
  have hquote : isWordRune (identQuote driver) = false := by cases driver <;> decide
  simp only [readIdent, hinner, true_and]
  exact if_pos fun hmem => ne_of_isWordRune ((word_of_isSqlIdentifier h).2 _ hmem) hquote rfl

/-- **The database reads the rename that was written.** -/
theorem readAction_statement (h : a.Valid) : readAction driver (a.statement driver) = some a := by
  rw [readAction, words_statement driver h]
  cases a with
  | renameTable old new =>
    simp [Action.words, readIdent_quote driver h.1, readIdent_quote driver h.2]
  | renameColumn table old new =>
    simp [Action.words, readIdent_quote driver h.1, readIdent_quote driver h.2.1,
      readIdent_quote driver h.2.2]

theorem splitOn_dot_quote (h : isSqlIdentifier id = true) :
    (quoteRenameIdent driver id).splitOn '.' = [quoteRenameIdent driver id] := by
  refine splitOnP_eq_singleton fun c hc => ?_
  rw [beq_eq_false_iff_ne]
  rcases mem_append.1 hc with hc | hc
  · rcases mem_cons.1 hc with rfl | hc
    · cases driver <;> decide
    · exact ne_of_isWordRune ((word_of_isSqlIdentifier h).2 c hc) (by decide)
  · rw [mem_singleton.1 hc]
    cases driver <;> decide

theorem isQuoteRune_of_word {c : Char} (h : isWordRune c = true) : isQuoteRune c = false := by
  simp only [isQuoteRune, Bool.or_eq_false_iff, decide_eq_false_iff_not]
  exact ⟨ne_of_isWordRune h (by decide), ne_of_isWordRune h (by decide)⟩

theorem isIdent_quote (h : isSqlIdentifier id = true) :
    isIdent (quoteRenameIdent driver id) = true := by
  obtain ⟨hne, hword⟩ := word_of_isSqlIdentifier h
  rw [isIdent, splitOn_dot_quote driver h]
  simp only [isIdentPart, quoteRenameIdent, cons_append, List.head?_cons, Option.any_some,
    isQuoteRune_identQuote, if_true, tail_cons, List.getLast?_concat, dropLast_concat,
    Bool.and_eq_true, decide_eq_true_eq, all_eq_true]
  exact ⟨hne, fun c hc => by rw [isFoldedWordRune, hword c hc]; rfl⟩

theorem unquote_quote (h : isSqlIdentifier id = true) :
    unquote (quoteRenameIdent driver id) = id := by
  obtain ⟨hne, hword⟩ := word_of_isSqlIdentifier h
  have hnot : ∀ c ∈ id, ¬ isQuoteRune c = true := fun c hc => by
    rw [isQuoteRune_of_word (hword c hc)]
    decide
  have hstart : (id ++ [identQuote driver]).dropWhile isQuoteRune = id ++ [identQuote driver] := by
    obtain ⟨c, cs, rfl⟩ := exists_cons_of_ne_nil hne
    exact dropWhile_cons_of_neg (hnot c mem_cons_self)
  have hend : id.rdropWhile isQuoteRune = id :=
    rdropWhile_eq_self_iff.2 fun hl => hnot _ (getLast_mem hl)
  rw [unquote, splitOn_dot_quote driver h, getLastD_cons, getLastD_nil, quoteRenameIdent,
    cons_append, dropWhile_cons_of_pos (isQuoteRune_identQuote driver), hstart,
    rdropWhile_concat_pos _ _ _ (isQuoteRune_identQuote driver), hend]

/-- **`DeclaredRenames` reads the rename that was written.** -/
theorem declaredRename_statement (h : a.Valid) :
    declaredRename (a.statement driver) = some a.declared := by
  have hkw : isKeyword "ALTER" "ALTER".toList = true ∧ isKeyword "TABLE" "TABLE".toList = true ∧
      isKeyword "RENAME" "RENAME".toList = true ∧ isKeyword "COLUMN" "COLUMN".toList = true ∧
      isKeyword "TO" "TO".toList = true := by decide
  obtain ⟨halter, htable, hrename, hcolumn, hto⟩ := hkw
  rw [declaredRename, reRenameColumn, reRenameTableTo, words_statement driver h]
  cases a with
  | renameTable old new =>
    simp only [Action.words, halter, htable, hrename, hto, isIdent_quote driver h.1,
      isIdent_quote driver h.2, Bool.and_self, if_true, unquote_quote driver h.1,
      unquote_quote driver h.2, Action.declared]
  | renameColumn table old new =>
    simp only [Action.words, halter, htable, hrename, hcolumn, hto, isIdent_quote driver h.1,
      isIdent_quote driver h.2.1, isIdent_quote driver h.2.2, Bool.and_self, if_true,
      unquote_quote driver h.1, unquote_quote driver h.2.1, unquote_quote driver h.2.2, Action.declared]

/-! ## The statements of the files -/

/-- A text that is one statement. -/
structure OneStatement (s : List Char) : Prop where
  oneLine : '\n' ∉ s
  noSemicolon : ';' ∉ s
  noDash : '-' ∉ s
  trimmed : trimRunes s = s
  ne_nil : s ≠ []

theorem oneStatement (h : a.Valid) : OneStatement (a.statement driver) := by
  have hnot : ∀ c, c ≠ ' ' → isWordRune c = false → isQuoteRune c = false → c ∉ a.statement driver := by
    intro c hblank hword hquote hmem
    rcases mem_intercalate hmem with hc | ⟨w, hw, hc⟩
    · exact hblank (mem_singleton.1 hc)
    · have := (isStatementWord_of_mem driver h w hw).2 c hc
      simp [hword, hquote] at this
  have hends : ∃ s, a.statement driver = 'A' :: s ++ [identQuote driver] := by
    cases a with
    | renameTable old new =>
      exact ⟨"LTER TABLE ".toList ++ quoteRenameIdent driver old ++ " RENAME TO ".toList ++
        identQuote driver :: new, by simp [Action.statement, Action.words, quoteRenameIdent]⟩
    | renameColumn table old new =>
      exact ⟨"LTER TABLE ".toList ++ quoteRenameIdent driver table ++ " RENAME COLUMN ".toList ++
        quoteRenameIdent driver old ++ " TO ".toList ++ identQuote driver :: new,
        by simp [Action.statement, Action.words, quoteRenameIdent]⟩
  obtain ⟨s, hs⟩ := hends
  exact {
    oneLine := hnot _ (by decide) (by decide) (by decide)
    noSemicolon := hnot _ (by decide) (by decide) (by decide)
    noDash := hnot _ (by decide) (by decide) (by decide)
    trimmed := by rw [hs, trimRunes_of_ends (by decide) (by cases driver <;> decide)]
    ne_nil := by rw [hs]; simp }

theorem splitStatements_one {s : List Char} (h : OneStatement s) (t : List Char) :
    splitStatements (s ++ ';' :: '\n' :: t) = s :: splitStatements t := by
  have hdash : ¬ ['-', '-'] <:+: s ++ [';'] := by
    intro hin
    have hmem : '-' ∈ s ++ [';'] := hin.subset mem_cons_self
    rcases mem_append.1 hmem with hs | hs
    · exact h.noDash hs
    · exact absurd hs (by decide)
  rw [splitStatements_statement h.oneLine h.noSemicolon hdash (by rw [h.trimmed]; exact h.ne_nil),
    h.trimmed]

theorem oneLine_quoted (h : isSqlIdentifier id = true) : '\n' ∉ quoted id := by
  intro hmem
  simp only [quoted, cons_append, mem_cons, mem_append, not_mem_nil, or_false] at hmem
  obtain hn | hn | hn := hmem
  · exact absurd hn (by decide)
  · exact absurd ((word_of_isSqlIdentifier h).2 _ hn) (by decide)
  · exact absurd hn (by decide)

/-- The statements of a loop of `renameSQL`. -/
theorem splitStatements_renameLines {α : Type} {comment statement : α → List Char} {xs : List α}
    (hcomment : ∀ x ∈ xs, '\n' ∉ comment x) (hstatement : ∀ x ∈ xs, OneStatement (statement x))
    (first : Bool) (t : List Char) :
    splitStatements (renameLines comment statement first xs ++ t) =
      xs.map statement ++ splitStatements t := by
  induction xs generalizing first with
  | nil => rfl
  | cons x xs ih =>
    obtain ⟨hc, hcs⟩ := forall_mem_cons.1 hcomment
    obtain ⟨hs, hss⟩ := forall_mem_cons.1 hstatement
    have hblank : ∀ u, splitStatements ((if first then [] else ['\n']) ++ u) = splitStatements u := by
      intro u
      cases first
      · exact splitStatements_blank u
      · rfl
    have hline : '\n' ∉ ' ' :: comment x := by simpa using hc
    rw [renameLines, append_assoc, hblank]
    have hcom := splitStatements_comment hline
      (statement x ++ ';' :: '\n' :: (renameLines comment statement false xs ++ t))
    simp only [cons_append] at hcom
    simp only [String.toList, append_assoc, cons_append]
    refine hcom.trans ?_
    rw [splitStatements_one hs, ih hcs hss, map_cons, cons_append]

/-- The statements of a loop of `renameDownSQL`. -/
theorem splitStatements_flatMap {α : Type} {statement : α → List Char} {xs : List α}
    (hstatement : ∀ x ∈ xs, OneStatement (statement x)) (t : List Char) :
    splitStatements ((xs.flatMap fun x => statement x ++ [';', '\n']) ++ t) =
      xs.map statement ++ splitStatements t := by
  induction xs with
  | nil => rfl
  | cons x xs ih =>
    obtain ⟨hs, hss⟩ := forall_mem_cons.1 hstatement
    rw [flatMap_cons, append_assoc, append_assoc]
    exact (splitStatements_one hs _).trans (congrArg (statement x :: ·) (ih hss))

/-! ## A rename migration and its down file -/

/-- The renames of a set, in the order of the file. -/
def actions (tables : List TableRename) (renames : List Rename) : List Action :=
  tables.map TableRename.action ++ renames.map Rename.action

theorem valid_of_validateRenameSet {tables : List TableRename} {renames : List Rename}
    (h : validateRenameSet tables renames = .ok ()) :
    (∀ t ∈ tables, t.action.Valid) ∧ ∀ r ∈ renames, r.action.Valid := by
  obtain ⟨seen, htables, h⟩ := ok_of_bind h
  obtain ⟨_, _, hcolumns⟩ := ok_of_bind h
  constructor
  · intro t ht
    obtain ⟨olds, news, hstep⟩ := ok_of_foldlM htables ht
    obtain ⟨_, hvalid, _⟩ := ok_of_bind hstep
    simp only [validateTableRename] at hvalid
    split_ifs at hvalid with hold hnew
    exact ⟨by simpa using hold, by simpa using hnew⟩
  · intro r hr
    obtain ⟨_, _, hstep⟩ := ok_of_foldlM hcolumns hr
    obtain ⟨_, hvalid, _⟩ := ok_of_bind hstep
    simp only [validateRename] at hvalid
    split_ifs at hvalid with htable hold hnew
    exact ⟨by simpa using htable, by simpa using hold, by simpa using hnew⟩

section

variable {tables : List TableRename} {renames : List Rename}
  (htables : ∀ t ∈ tables, t.action.Valid) (hrenames : ∀ r ∈ renames, r.action.Valid)
include htables hrenames

theorem valid_actions : ∀ a ∈ actions tables renames, a.Valid := by
  intro a ha
  rcases mem_append.1 ha with ha | ha
  · obtain ⟨t, ht, rfl⟩ := mem_map.1 ha
    exact htables t ht
  · obtain ⟨r, hr, rfl⟩ := mem_map.1 ha
    exact hrenames r hr

theorem statements_renameSQL :
    splitStatements (renameSQL driver tables renames) =
      (actions tables renames).map (Action.statement driver) := by
  have htable : ∀ t ∈ tables, '\n' ∉ tableComment t := by
    intro t ht
    have hold : '\n' ∉ "Rename table ".toList ++ quoted t.old :=
      not_mem_append (by decide) (oneLine_quoted (htables t ht).1)
    exact not_mem_append (not_mem_append hold (by decide)) (oneLine_quoted (htables t ht).2)
  have hcolumn : ∀ r ∈ renames, '\n' ∉ columnComment r := by
    intro r hr
    have hold : '\n' ∉ "Rename column ".toList ++ quoted r.oldColumn :=
      not_mem_append (by decide) (oneLine_quoted (hrenames r hr).2.1)
    have hnew := not_mem_append (not_mem_append hold (by decide : '\n' ∉ " to ".toList))
      (oneLine_quoted (hrenames r hr).2.2)
    exact not_mem_append (not_mem_append hnew (by decide)) (oneLine_quoted (hrenames r hr).1)
  have hend := splitStatements_renameLines hcolumn (fun r hr => oneStatement driver (hrenames r hr))
    tables.isEmpty []
  rw [append_nil] at hend
  rw [renameSQL, splitStatements_renameLines htable fun t ht => oneStatement driver (htables t ht), hend,
    actions, map_append, map_map, map_map]
  exact congrArg _ (append_nil _)

theorem statements_renameDownSQL :
    splitStatements (renameDownSQL driver tables renames) =
      ((actions tables renames).reverse.map Action.undo).map (Action.statement driver) := by
  have hend := splitStatements_flatMap
    (fun t ht => oneStatement driver (htables t (mem_reverse.1 ht)).undo) []
  rw [append_nil] at hend
  rw [renameDownSQL, splitStatements_flatMap fun r hr =>
    oneStatement driver (hrenames r (mem_reverse.1 hr)).undo, hend, actions, reverse_append,
    map_append, map_append, ← map_reverse, ← map_reverse]
  simp only [map_map]
  exact congrArg _ (append_nil _)

end

theorem mapM_readAction {as : List Action} (h : ∀ a ∈ as, a.Valid) :
    (as.map (Action.statement driver)).mapM (readAction driver) = some as := by
  induction as with
  | nil => rfl
  | cons a as ih =>
    obtain ⟨ha, has⟩ := forall_mem_cons.1 h
    rw [map_cons, mapM_cons, readAction_statement driver ha, ih has]
    rfl

/-- **A rename migration and its down file are inverse**, and the renames are read from its text: for
a set of renames that is accepted, running the down file after the migration gives back the schema,
and the declared renames are the table renames and then the column renames, in order. -/
theorem rename_undone {Data : Type*} (driver : DatabaseDriver) (tables : List TableRename)
    (renames : List Rename) (h : validateRenameSet tables renames = .ok ()) :
    (∀ s s' : Schema Data, runSQL driver (renameSQL driver tables renames) s = some s' →
      runSQL driver (renameDownSQL driver tables renames) s' = some s) ∧
    declaredRenames (renameSQL driver tables renames) =
      tables.map (fun t => ⟨t.old, [], t.new⟩) ++
        renames.map fun r => ⟨r.table, r.oldColumn, r.newColumn⟩ := by
  obtain ⟨htables, hrenames⟩ := valid_of_validateRenameSet h
  have hvalid := valid_actions htables hrenames
  have hundo : ∀ a ∈ (actions tables renames).reverse.map Action.undo, a.Valid := by
    intro a ha
    obtain ⟨b, hb, rfl⟩ := mem_map.1 ha
    exact (hvalid b (mem_reverse.1 hb)).undo
  constructor
  · intro s s' hrun
    rw [runSQL, statements_renameSQL driver htables hrenames, mapM_readAction driver hvalid,
      Option.bind_some] at hrun
    rw [runSQL, statements_renameDownSQL driver htables hrenames, mapM_readAction driver hundo,
      Option.bind_some]
    exact runActions_reverse hrun
  · have hdeclared : ∀ as : List Action, (∀ a ∈ as, a.Valid) →
        (as.map (Action.statement driver)).filterMap declaredRename = as.map Action.declared := by
      intro as has
      induction as with
      | nil => rfl
      | cons a as ih =>
        obtain ⟨ha, has⟩ := forall_mem_cons.1 has
        rw [map_cons, filterMap_cons_some (declaredRename_statement driver ha), ih has,
          map_cons]
    rw [declaredRenames, statements_renameSQL driver htables hrenames, hdeclared _ hvalid, actions,
      map_append, map_map, map_map]
    rfl

/-- Renaming `users` to `people` and its column `mail` to `email`. -/
theorem rename_undone_users :
    let tables : List TableRename := [⟨"users".toList, "people".toList⟩]
    let renames : List Rename := [⟨"people".toList, "mail".toList, "email".toList⟩]
    let s : Schema ℕ := [("users".toList, [("id".toList, 1), ("mail".toList, 2)])]
    let s' : Schema ℕ := [("people".toList, [("id".toList, 1), ("email".toList, 2)])]
    let sql := renameSQL .postgres tables renames
    runSQL .postgres sql s = some s' ∧
      runSQL .postgres (renameDownSQL .postgres tables renames) s' = some s ∧
      declaredRenames sql = [⟨"users".toList, [], "people".toList⟩,
        ⟨"people".toList, "mail".toList, "email".toList⟩] := by
  intro tables renames s s' sql
  have hrun : runSQL .postgres sql s = some s' := by decide +kernel
  have hundone := @rename_undone ℕ .postgres tables renames rfl
  exact ⟨hrun, hundone.1 s s' hrun, hundone.2⟩

end Gombit.Migrations
