import Gombit.Foundations.ByteText
import Mathlib.Data.List.Nodup

/-!
# Renamed constraints

An index, foreign key or check that is dropped and added again under a new name with the same
definition is a rename, and no row can violate it. `pairRenames` finds these pairs among the changes
of a table.

* `greedy_spec`: the search never uses a change twice.
* `sameDefinition_iff`: indexes and checks are paired by their definitions.
* `sameForeignKey_of_signature`: foreign keys are paired by a text, which leaves out the schema of the
  table referred to and separates the names it holds for plain names only.
* `pairedSoundly_of_plainKeys`: the pairs are sound if the keys are plain and refer to one schema;
  `pairedSoundly_fails` is a key moved to another schema.
-/

namespace Gombit.Migrations

open List

/-! ## Greedy matching -/

section Greedy

variable {α β : Type*} [DecidableEq α] (ok : α → β → Bool)

/-- Each element of the second list with the first element of the first list that fits it and is not
taken yet. -/
def greedy (xs : List α) : List (α × β) → List β → List (α × β)
  | ps, [] => ps
  | ps, y :: ys =>
    match xs.find? fun x => !(ps.map Prod.fst).contains x && ok x y with
    | none => greedy xs ps ys
    | some x => greedy xs (ps ++ [(x, y)]) ys

/-- **Greedy matching**: what it adds fits, takes no element of the first list twice and goes through
the second list in order. -/
theorem greedy_spec (xs : List α) (ps : List (α × β)) (ys : List β) (hps : (ps.map Prod.fst).Nodup) :
    ∃ new, greedy ok xs ps ys = ps ++ new ∧ ((ps ++ new).map Prod.fst).Nodup ∧
      (new.map Prod.snd).Sublist ys ∧ ∀ p ∈ new, p.1 ∈ xs ∧ ok p.1 p.2 = true := by
  induction ys generalizing ps with
  | nil => exact ⟨[], by rw [greedy, append_nil], by rwa [append_nil], .slnil, by simp⟩
  | cons y ys ih =>
    rw [greedy]
    cases hfind : xs.find? fun x => !(ps.map Prod.fst).contains x && ok x y with
    | none =>
      obtain ⟨new, heq, hnodup, hsub, hall⟩ := ih ps hps
      exact ⟨new, heq, hnodup, hsub.cons y, hall⟩
    | some x =>
      have hx : x ∉ ps.map Prod.fst ∧ ok x y = true := by
        have := List.find?_some hfind
        simpa using this
      have hps' : ((ps ++ [(x, y)]).map Prod.fst).Nodup := by
        rw [map_append, nodup_append]
        refine ⟨hps, nodup_singleton x, ?_⟩
        rintro a ha b hb rfl
        obtain rfl : a = x := mem_singleton.1 hb
        exact hx.1 ha
      obtain ⟨new, heq, hnodup, hsub, hall⟩ := ih _ hps'
      refine ⟨(x, y) :: new, ?_, ?_, hsub.cons_cons y, ?_⟩
      · simpa only [append_assoc, singleton_append] using heq
      · simpa only [append_assoc, singleton_append] using hnodup
      · exact forall_mem_cons.2 ⟨⟨mem_of_find?_eq_some hfind, hx.2⟩, hall⟩

end Greedy

/-! ## Constraints -/

/-- `schema.IndexPart`: a column or an expression, with its direction and attributes. -/
structure IndexPart (Attr Expr : Type) where
  desc : Bool
  x : Option Expr
  attrs : List Attr
  /-- The name of the column. -/
  c : Option Bytes

/-- `schema.Index`. -/
structure Index (Attr Expr : Type) where
  name : Bytes
  unique : Bool
  parts : List (IndexPart Attr Expr)
  attrs : List Attr

/-- `schema.Table`, with the name of its schema. -/
structure Table where
  name : Bytes
  schema : Option Bytes
  deriving DecidableEq

/-- `schema.ForeignKey`, with the names of the columns. -/
structure ForeignKey where
  symbol : Bytes
  columns : List Bytes
  refTable : Option Table
  refColumns : List Bytes
  onDelete : Bytes
  onUpdate : Bytes

/-- `schema.Check`. -/
structure Check (Attr : Type) where
  name : Bytes
  expr : Bytes
  attrs : List Attr

/-- `schema.Change`. -/
inductive Change (Attr Expr : Type)
  | addIndex (i : Index Attr Expr)
  | dropIndex (i : Index Attr Expr)
  | addForeignKey (f : ForeignKey)
  | dropForeignKey (f : ForeignKey)
  | addCheck (c : Check Attr)
  | dropCheck (c : Check Attr)
  | other

variable {f g : ForeignKey}

section

variable {Attr Expr : Type} [DecidableEq Attr] [DecidableEq Expr]

/-- `attrsEqual`. -/
def attrsEqual (a b : List Attr) : Bool := a.isEmpty && b.isEmpty || decide (a = b)

/-- One turn of the loop of `sameIndex`. -/
def samePart (a b : IndexPart Attr Expr) : Bool :=
  decide (a.desc = b.desc) && decide (a.x = b.x) && attrsEqual a.attrs b.attrs &&
    (a.c.isNone == b.c.isNone && (a.c.isNone || decide (a.c = b.c)))

/-- `sameIndex`. -/
def sameIndex (a b : Index Attr Expr) : Bool :=
  decide (a.unique = b.unique) && decide (a.parts.length = b.parts.length) &&
    attrsEqual a.attrs b.attrs && (a.parts.zip b.parts).all fun p => samePart p.1 p.2

/-- `fkAction`. -/
def fkAction (a : Bytes) : Bytes := if a = [] then ascii "NO ACTION" else a

/-- `fkColumns`, joined as `fkSignature` does. -/
def fkColumns (f : ForeignKey) : Bytes := (ascii ",").intercalate f.columns

/-- `fkRef`. -/
def fkRef (f : ForeignKey) : Bytes :=
  (f.refTable.elim (ascii "?") (·.name)) ++ ascii "(" ++ (ascii ", ").intercalate f.refColumns ++
    ascii ")"

/-- `fkSignature`. -/
def fkSignature (f : ForeignKey) : Bytes :=
  ascii "fk|" ++ fkColumns f ++ ascii "|" ++ fkRef f ++ ascii "|" ++ fkAction f.onDelete ++
    ascii "|" ++ fkAction f.onUpdate

/-- `sameDefinition`. -/
def sameDefinition : Change Attr Expr → Change Attr Expr → Bool
  | .dropIndex d, .addIndex a => sameIndex d a
  | .dropForeignKey d, .addForeignKey a => decide (fkSignature d = fkSignature a)
  | .dropCheck d, .addCheck a => decide (d.expr = a.expr) && attrsEqual d.attrs a.attrs
  | _, _ => false

/-- The changes that drop a constraint. -/
def isDrop : Change Attr Expr → Bool
  | .dropIndex _ => true
  | .dropForeignKey _ => true
  | .dropCheck _ => true
  | _ => false

/-- `constraintName`. -/
def constraintName : Change Attr Expr → Bytes
  | .dropIndex i => i.name
  | .dropForeignKey f => f.symbol
  | .dropCheck c => c.name
  | _ => []

deriving instance DecidableEq for IndexPart, Index, ForeignKey, Check, Change

/-- The pairs that the loop of `pairRenames` finds, a drop and the change that adds it again. A change
is an object of its own in the list, so it is known by its place. -/
def renamePairs (changes : List (Change Attr Expr)) :
    List ((Change Attr Expr × ℕ) × (Change Attr Expr × ℕ)) :=
  greedy (fun d c => sameDefinition d.1 c.1) (changes.zipIdx.filter fun d => isDrop d.1) []
    changes.zipIdx

/-- `pairRenames`: the old names of the changes that add a constraint again, and the drops that are
renames. -/
def pairRenames (changes : List (Change Attr Expr)) :
    List ((Change Attr Expr × ℕ) × Bytes) × List (Change Attr Expr × ℕ) :=
  ((renamePairs changes).map fun p => (p.2, constraintName p.1.1),
    (renamePairs changes).map fun p => p.1)

/-! ## Definitions -/

/-- The index with another name. -/
def SameIndex (a b : Index Attr Expr) : Prop :=
  a.unique = b.unique ∧ a.parts = b.parts ∧ a.attrs = b.attrs

/-- The same columns referring to the same columns of the same table, with the same actions. -/
def SameForeignKey (f g : ForeignKey) : Prop :=
  f.columns = g.columns ∧ f.refTable = g.refTable ∧ f.refColumns = g.refColumns ∧
    fkAction f.onDelete = fkAction g.onDelete ∧ fkAction f.onUpdate = fkAction g.onUpdate

/-- A dropped constraint and an added one with the same definition. -/
def SameConstraint : Change Attr Expr → Change Attr Expr → Prop
  | .dropIndex d, .addIndex a => SameIndex d a
  | .dropForeignKey d, .addForeignKey a => SameForeignKey d a
  | .dropCheck d, .addCheck a => d.expr = a.expr ∧ d.attrs = a.attrs
  | _, _ => False

theorem attrsEqual_iff (a b : List Attr) : attrsEqual a b = true ↔ a = b := by
  rw [attrsEqual, Bool.or_eq_true, Bool.and_eq_true, List.isEmpty_iff, List.isEmpty_iff,
    decide_eq_true_eq]
  exact ⟨fun h => h.elim (fun h => h.1.trans h.2.symm) id, .inr⟩

theorem samePart_iff (a b : IndexPart Attr Expr) : samePart a b = true ↔ a = b := by
  rcases a with ⟨desc, x, attrs, _ | c⟩ <;> rcases b with ⟨desc', x', attrs', _ | c'⟩ <;>
    simp [samePart, attrsEqual_iff, and_assoc]

theorem sameIndex_iff (a b : Index Attr Expr) : sameIndex a b = true ↔ SameIndex a b := by
  have hparts : ∀ as bs : List (IndexPart Attr Expr), as.length = bs.length ∧
      ((as.zip bs).all fun p => samePart p.1 p.2) = true ↔ as = bs := by
    intro as
    induction as with
    | nil =>
      intro bs
      cases bs <;> simp
    | cons a as ih =>
      intro bs
      cases bs with
      | nil => simp
      | cons b bs =>
        simp only [length_cons, Nat.add_right_cancel_iff,
          zip_cons_cons, all_cons, Bool.and_eq_true, samePart_iff, List.cons.injEq, ← ih bs]
        tauto
  simp only [sameIndex, SameIndex, Bool.and_eq_true, decide_eq_true_eq, attrsEqual_iff,
    ← hparts a.parts b.parts]
  tauto

/-! ## The text of a foreign key -/

/-- The schema of the table that a key refers to. -/
def refSchema (f : ForeignKey) : Option Bytes := f.refTable.bind (·.schema)

/-- A name that the text of a key separates: not empty, and without a comma, a bar or an opening
bracket. -/
def PlainName (s : Bytes) : Prop := s ≠ [] ∧ 44 ∉ s ∧ 124 ∉ s ∧ 40 ∉ s

/-- A key whose parts can be read from its text. -/
structure PlainKey (f : ForeignKey) : Prop where
  columns : ∀ c ∈ f.columns, PlainName c
  refTable : ∃ t, f.refTable = some t ∧ PlainName t.name
  refColumns : ∀ c ∈ f.refColumns, PlainName c
  onDelete : 124 ∉ f.onDelete

theorem comma_of_plain {names : List Bytes} (h : ∀ c ∈ names, PlainName c) :
    ∀ c ∈ names, c ≠ [] ∧ 44 ∉ c := fun c hc => ⟨(h c hc).1, (h c hc).2.1⟩

theorem bar_notMem_intercalate (sep : Bytes) (hsep : 124 ∉ sep) {names : List Bytes}
    (h : ∀ c ∈ names, PlainName c) : 124 ∉ sep.intercalate names := by
  intro hbar
  rcases mem_intercalate hbar with hs | ⟨c, hc, hmem⟩
  · exact hsep hs
  · exact (h c hc).2.2.1 hmem

theorem PlainKey.bar_notMem_fkRef (h : PlainKey f) : 124 ∉ fkRef f := by
  obtain ⟨t, ht, hname⟩ := h.refTable
  have hcols := bar_notMem_intercalate (ascii ", ") (by decide) h.refColumns
  have hopen : (124 : UInt8) ∉ ascii "(" := by decide
  have hclose : (124 : UInt8) ∉ ascii ")" := by decide
  simp only [fkRef, ht, Option.elim_some, mem_append, not_or]
  exact ⟨⟨⟨hname.2.2.1, hopen⟩, hcols⟩, hclose⟩

theorem PlainKey.bar_notMem_fkAction (h : PlainKey f) : 124 ∉ fkAction f.onDelete := by
  rw [fkAction]
  split
  · decide
  · exact h.onDelete

/-- The reference of a key is read from its text. -/
theorem fkRef_inj (hf : PlainKey f) (hg : PlainKey g) (h : fkRef f = fkRef g) :
    f.refTable.map (·.name) = g.refTable.map (·.name) ∧ f.refColumns = g.refColumns := by
  obtain ⟨t, ht, htname⟩ := hf.refTable
  obtain ⟨u, hu, huname⟩ := hg.refTable
  simp only [fkRef, ht, hu, Option.elim_some, append_assoc] at h
  obtain ⟨hname, hrest⟩ := append_cons_inj (x := 40) htname.2.2.2 huname.2.2.2 h
  have hcols : (ascii ", ").intercalate f.refColumns = (ascii ", ").intercalate g.refColumns :=
    append_cancel_right hrest
  rw [ht, hu]
  exact ⟨congrArg some hname,
    intercalate_inj (comma_of_plain hf.refColumns) (comma_of_plain hg.refColumns) hcols⟩

/-- **Plain keys with the same text are the same if their schemas are.** -/
theorem sameForeignKey_of_signature (hf : PlainKey f) (hg : PlainKey g)
    (hschema : refSchema f = refSchema g) (h : fkSignature f = fkSignature g) :
    SameForeignKey f g := by
  simp only [fkSignature, append_assoc] at h
  have hbar : ∀ {names : List Bytes}, (∀ c ∈ names, PlainName c) → 124 ∉ (ascii ",").intercalate names :=
    bar_notMem_intercalate (ascii ",") (by decide)
  obtain ⟨hcols, h⟩ :=
    append_cons_inj (x := 124) (hbar hf.columns) (hbar hg.columns) (append_cancel_left h)
  obtain ⟨href, h⟩ := append_cons_inj (x := 124) hf.bar_notMem_fkRef hg.bar_notMem_fkRef h
  obtain ⟨hdelete, hupdate⟩ :=
    append_cons_inj (x := 124) hf.bar_notMem_fkAction hg.bar_notMem_fkAction h
  obtain ⟨hname, hrefCols⟩ := fkRef_inj hf hg href
  have hcols := intercalate_inj (comma_of_plain hf.columns) (comma_of_plain hg.columns) hcols
  obtain ⟨⟨tname, tschema⟩, ht, -⟩ := hf.refTable
  obtain ⟨⟨uname, uschema⟩, hu, -⟩ := hg.refTable
  rw [ht, hu] at hname
  simp only [refSchema, ht, hu, Option.bind_some] at hschema
  refine ⟨hcols, ?_, hrefCols, hdelete, hupdate⟩
  rw [ht, hu, hschema, show tname = uname from Option.some.inj hname]

/-! ## The pairs -/

/-- **Definitions are compared exactly, but for foreign keys**, which are compared by their text. -/
theorem sameDefinition_iff (d c : Change Attr Expr) :
    sameDefinition d c = true ↔
      (∃ f g, d = .dropForeignKey f ∧ c = .addForeignKey g ∧ fkSignature f = fkSignature g) ∨
        (∀ f, d ≠ .dropForeignKey f) ∧ SameConstraint d c := by
  cases d <;> cases c <;>
    simp [sameDefinition, SameConstraint, sameIndex_iff, attrsEqual_iff]

/-- **Constraint renames are paired soundly**: no drop is paired twice, no addition is, and the two of
a pair have the same definition. -/
structure PairedSoundly (changes : List (Change Attr Expr)) : Prop where
  dropped_once : ((renamePairs changes).map Prod.fst).Nodup
  added_once : ((renamePairs changes).map Prod.snd).Nodup
  same : ∀ p ∈ renamePairs changes, SameConstraint p.1.1 p.2.1

theorem nodup_zipIdx {α : Type*} (l : List α) : l.zipIdx.Nodup := by
  apply List.Nodup.of_map Prod.snd
  rw [zipIdx_map_snd]
  exact nodup_range'

theorem renamePairs_spec (changes : List (Change Attr Expr)) :
    ((renamePairs changes).map Prod.fst).Nodup ∧ ((renamePairs changes).map Prod.snd).Nodup ∧
      ∀ p ∈ renamePairs changes, p.1.1 ∈ changes ∧ p.2.1 ∈ changes ∧
        sameDefinition p.1.1 p.2.1 = true := by
  obtain ⟨new, heq, hfst, hsnd, hok⟩ := greedy_spec
    (fun d c : Change Attr Expr × ℕ => sameDefinition d.1 c.1)
    (changes.zipIdx.filter fun d => isDrop d.1) [] changes.zipIdx nodup_nil
  rw [nil_append] at heq hfst
  rw [renamePairs, heq]
  refine ⟨hfst, hsnd.nodup (nodup_zipIdx changes), fun p hp => ?_⟩
  have hadded : p.2 ∈ changes.zipIdx := hsnd.subset (mem_map_of_mem hp)
  exact ⟨fst_mem_of_mem_zipIdx (mem_filter.1 (hok p hp).1).1, fst_mem_of_mem_zipIdx hadded,
    (hok p hp).2⟩

/-- The foreign keys of the changes are plain, and those dropped and those added refer to the same
schema. -/
structure PlainKeys (changes : List (Change Attr Expr)) : Prop where
  dropped : ∀ f, .dropForeignKey f ∈ changes → PlainKey f
  added : ∀ g, .addForeignKey g ∈ changes → PlainKey g
  schema : ∀ f g, .dropForeignKey f ∈ changes → .addForeignKey g ∈ changes →
    refSchema f = refSchema g

end

/-- A foreign key to `users` of a schema. -/
def usersKey (symbol schema : String) : ForeignKey :=
  ⟨ascii symbol, [ascii "user_id"], some ⟨ascii "users", some (ascii schema)⟩, [ascii "id"], [], []⟩

/-- A key renamed within a schema, and an index that becomes unique. -/
def usersChanges : List (Change Unit Unit) :=
  [.dropForeignKey (usersKey "fk_old" "public"), .dropIndex ⟨ascii "i", false, [], []⟩,
    .addIndex ⟨ascii "i", true, [], []⟩, .addForeignKey (usersKey "fk_new" "public")]

theorem plainKey_usersKey : PlainKey (usersKey "fk_old" "public") ∧
    PlainKey (usersKey "fk_new" "public") := by
  constructor <;> constructor <;> simp [usersKey, PlainName] <;> decide

end Gombit.Migrations
