import Gombit.Database.Snapshot

/-!
# The columns an edit has changed

`StoredValues` (`database/edit.go`) takes a snapshot of the values of a row, and `narrowToChanged` selects
the columns whose value is another one than in the snapshot. A column of an interface type is a special
case: the snapshot keeps what the interface holds (`unwrap`), which is of another type than the column.

* `storedValues_spec`: the snapshot is a copy of the row, in fresh cells (`SnapshotOf`).
* `SnapshotOf.frame`: it stays one whatever happens to the other cells.
* `narrowToChanged_spec`: the selected columns are those whose tree differs, and every updatable column of
  an interface type.
-/

namespace Gombit.Database.InMemory

open Memory List

variable {τ κ σ : Type}

/-! ## The model -/

/-- A column, with the type of the field. -/
structure Column (τ : Type) where
  name : String
  type : τ
  updatable : Bool
  primary : Bool

/-- The columns of a model, and which types are interfaces. -/
structure Schema (τ : Type) where
  columns : List (Column τ)
  isInterface : τ → Bool
  nodup : (columns.map Column.name).Nodup

/-- The values of the columns in a `StoredRow`; none is the invalid value. -/
abbrev StoredRow (τ σ : Type) : Type := List (String × Option (Val τ σ))

/-- What `reflect.ValueOf` gives for the `Interface` of a value: what an interface holds, nothing for a
nil interface, and the value itself otherwise. -/
def unwrap (isInterface : τ → Bool) : Val τ σ → Option (Val τ σ)
  | .iface _ v => some v
  | .null t => if isInterface t = true then none else some (.null t)
  | v => some v

/-- `StoredValues`, of the values of the updatable columns. -/
def storedValues (schema : Schema τ) (n : ℕ) (h : Heap τ κ σ) (row : String → Val τ σ) :
    Option (StoredRow τ σ × Heap τ κ σ) :=
  let columns := schema.columns.filter Column.updatable
  (copyAll (deepCopy n) h (columns.map fun c => row c.name)).map fun r =>
    ((columns.map Column.name).zip (r.1.map (unwrap schema.isInterface)), r.2)

section Comparison

variable [DecidableEq τ] [DecidableEq κ] [DecidableEq σ]

/-- `StoredRow.unchanged`. -/
def unchanged (n : ℕ) (h : Heap τ κ σ) (stored : StoredRow τ σ) (column : String) (v : Val τ σ) :
    Option Bool :=
  match stored.lookup column with
  | some (some w) => valuesEqual h n v w
  | _ => some false

/-- The loop of `narrowToChanged`. -/
def changedColumns (n : ℕ) (h : Heap τ κ σ) (stored : StoredRow τ σ) (row : String → Val τ σ) :
    List (Column τ) → Option (List String)
  | [] => some []
  | c :: cs =>
    if c.updatable = true then
      (unchanged n h stored c.name (row c.name)).bind fun same =>
        (changedColumns n h stored row cs).map fun names => if same then names else c.name :: names
    else changedColumns n h stored row cs

/-- `narrowToChanged`: the columns that are selected. -/
def narrowToChanged (schema : Schema τ) (n : ℕ) (h : Heap τ κ σ) (stored : StoredRow τ σ)
    (row : String → Val τ σ) : Option (List String) :=
  (changedColumns n h stored row schema.columns).map fun changed =>
    if changed = [] then (schema.columns.filter Column.primary).map Column.name else changed

end Comparison

/-! ## Types -/

/-- The tree is one of a value of the type: an interface holds a value that is of no interface type. -/
def HasType (isInterface : τ → Bool) (type : τ) : ValTree τ κ σ → Prop
  | .node (.iface t) child =>
    t = type ∧ isInterface type = true ∧ ∀ u, child .inner = some u → isInterface u.type = false
  | .node (.null t) _ => t = type
  | .node label _ => label.type = type ∧ isInterface type = false

section Types

variable {isInterface : τ → Bool} {type : τ}

theorem type_of_hasType {t : ValTree τ κ σ} (ht : HasType isInterface type t) : t.type = type := by
  obtain ⟨label, child⟩ := t
  cases label with
  | iface t => exact ht.1
  | null t => exact ht
  | _ => exact ht.1

variable [DecidableEq κ] {h : Heap τ κ σ} {n : ℕ} {v : Val τ σ} {t : ValTree τ κ σ}

theorem exists_view (hv : Denotes h n v t) : ∃ m child, n = m + 1 ∧ t = .node v.label child ∧
    ∃ kids, h.view v = some (v.label, kids) ∧ ∀ p, Option.Rel (Denotes h m) (kids p) (child p) := by
  cases n with
  | zero => exact hv.elim
  | succ m =>
    obtain ⟨label, child⟩ := t
    obtain ⟨kids, hview, hkids⟩ := hv
    obtain rfl : label = v.label := label_of_view hview
    exact ⟨m, child, rfl, rfl, kids, hview, hkids⟩

theorem unwrap_of_not_interface (hv : Denotes h n v t) (ht : HasType isInterface type t)
    (htype : isInterface type = false) : unwrap isInterface v = some v := by
  obtain ⟨m, child, -, rfl, -⟩ := exists_view hv
  cases v with
  | iface t x => cases ht.2.1.symm.trans htype
  | null t =>
    obtain rfl : t = type := ht
    simp [unwrap, htype]
  | _ => rfl

/-- What is kept of an interface is of another type, or nothing. -/
theorem unwrap_of_interface (hv : Denotes h n v t) (ht : HasType isInterface type t)
    (htype : isInterface type = true) : unwrap isInterface v = none ∨
      ∃ w u m, unwrap isInterface v = some w ∧ Denotes h m w u ∧ isInterface u.type = false := by
  obtain ⟨m, child, -, rfl, kids, hview, hkids⟩ := exists_view hv
  cases v with
  | iface t x =>
    obtain ⟨-, rfl⟩ := Prod.mk.inj (Option.some.inj hview)
    obtain ⟨u, hu, rfl⟩ := exists_onlyTree hkids
    exact .inr ⟨x, u, m, rfl, hu, ht.2.2 u rfl⟩
  | null t =>
    obtain rfl : t = type := ht
    exact .inl (if_pos htype)
  | _ => cases htype.symm.trans ht.2

end Types

/-! ## Snapshots -/

section Snapshots

variable [DecidableEq κ] {schema : Schema τ} {h h' : Heap τ κ σ} {K : ℕ → Prop}
  {stored : StoredRow τ σ} {row : String → Val τ σ} {loaded edited : String → ValTree τ κ σ} {n : ℕ}

/-- The stored values are copies, in the cells at `K`, of a row with these trees. -/
structure SnapshotOf (schema : Schema τ) (h : Heap τ κ σ) (K : ℕ → Prop) (stored : StoredRow τ σ)
    (loaded : String → ValTree τ κ σ) : Prop where
  closed : Closed K h
  copies : ∀ c ∈ schema.columns, c.updatable = true → ∃ v m,
    stored.lookup c.name = some (unwrap schema.isInterface v) ∧ Knows K v ∧
      Denotes h m v (loaded c.name)

/-- **Frame.** What happens in other cells does not matter to a snapshot. -/
theorem SnapshotOf.frame (hs : SnapshotOf schema h K stored loaded)
    (hagree : ∀ a, K a → h'.cell a = h.cell a) : SnapshotOf schema h' K stored loaded where
  closed a c ha hc := hs.closed a c ha ((hagree a ha).symm.trans hc)
  copies c hc hupd := by
    obtain ⟨v, m, hstored, hknows, hden⟩ := hs.copies c hc hupd
    exact ⟨v, m, hstored, hknows, hden.frame hs.closed hagree hknows⟩

variable {columns : List (Column τ)} {c : Column τ}

/-- A column's entry in the list of all. -/
theorem lookup_zip_map {α : Type} (hnodup : (columns.map Column.name).Nodup)
    {vs : List α} {P : Column τ → α → Prop} (hvs : List.Forall₂ P columns vs) (hc : c ∈ columns) :
    ∃ v, ((columns.map Column.name).zip vs).lookup c.name = some v ∧ P c v := by
  induction hvs with
  | nil => cases hc
  | @cons d v columns vs hdv _ ih =>
    rw [map_cons, nodup_cons] at hnodup
    rw [map_cons, zip_cons_cons, lookup_cons]
    rcases mem_cons.1 hc with rfl | hc
    · exact ⟨v, by simp, hdv⟩
    · have hne : c.name ≠ d.name :=
        fun heq => hnodup.1 (heq ▸ mem_map_of_mem hc)
      rw [beq_false_of_ne hne]
      exact ih hnodup.2 hc

/-- **Snapshots.** The stored values of a row of trees are a snapshot in fresh cells. -/
theorem storedValues_spec (hrow : ∀ c ∈ schema.columns, Denotes h n (row c.name) (loaded c.name)) :
    ∃ stored h', storedValues schema n h row = some (stored, h') ∧ Fresh h h' ∧
      SnapshotOf schema h' (Within h.next h'.next) stored loaded := by
  set columns := schema.columns.filter Column.updatable with hcolumns
  have htrees : List.Forall₂ (Denotes h n) (columns.map fun c => row c.name)
      (columns.map fun c => loaded c.name) := by
    rw [forall₂_map_left_iff, forall₂_map_right_iff, forall₂_same]
    exact fun c hc => hrow c (mem_of_mem_filter hc)
  obtain ⟨vs, h', hcopy, hfresh, hknows, hden⟩ := copyAll_spec deepCopy_spec htrees
  refine ⟨_, h', by rw [storedValues, hcopy, Option.map_some], hfresh, hfresh.closed, ?_⟩
  intro c hc hupd
  rw [forall₂_map_right_iff] at hden
  have hnodup : (columns.map Column.name).Nodup :=
    schema.nodup.sublist (filter_sublist.map _)
  have hcopies : List.Forall₂ (fun (c : Column τ) (w : Option (Val τ σ)) => ∃ v, w =
      unwrap schema.isInterface v ∧ Knows (Within h.next h'.next) v ∧ Denotes h' n v (loaded c.name))
      columns (vs.map (unwrap schema.isInterface)) := by
    rw [forall₂_map_right_iff]
    have hboth := (forall₂_and_left vs columns).2 ⟨hknows, hden⟩
    exact hboth.flip.imp fun c v hv => ⟨v, rfl, hv.1, hv.2⟩
  obtain ⟨w, hw, v, rfl, hv, hd⟩ :=
    lookup_zip_map hnodup hcopies (mem_filter.2 ⟨hc, hupd⟩)
  exact ⟨v, n, hw, hv, hd⟩

variable [DecidableEq τ] [DecidableEq σ]

/-- The value of a column is found unchanged when it is the same tree, and the column is of no interface
type. -/
theorem unchanged_spec (hs : SnapshotOf schema h K stored loaded)
    (hc : c ∈ schema.columns) (hupd : c.updatable = true) {v : Val τ σ} {t : ValTree τ κ σ}
    (hv : Denotes h n v t) (ht : HasType schema.isInterface c.type t)
    (hloaded : HasType schema.isInterface c.type (loaded c.name)) :
    ∃ same, unchanged n h stored c.name v = some same ∧
      (same = true ↔ schema.isInterface c.type = false ∧ t = loaded c.name) := by
  obtain ⟨v', m, hstored, -, hden⟩ := hs.copies c hc hupd
  cases htype : schema.isInterface c.type with
  | false =>
    rw [unwrap_of_not_interface hden hloaded htype] at hstored
    obtain ⟨same, hsame, hiff⟩ := valuesEqual_spec h n hv hden
    exact ⟨same, by simp only [unchanged, hstored, hsame], by simpa using hiff⟩
  | true =>
    refine ⟨false, ?_, by simp⟩
    rcases unwrap_of_interface hden hloaded htype with hnone | ⟨w, u, k, hw, hu, hutype⟩
    · rw [unchanged, hstored, hnone]
    · obtain ⟨same, hsame, hiff⟩ := valuesEqual_spec h n hv hu
      have hne : t ≠ u := by
        rintro rfl
        rw [type_of_hasType ht, htype] at hutype
        cases hutype
      have hfalse : same = false := Bool.eq_false_iff.2 fun htrue => hne (hiff.1 htrue)
      simp only [unchanged, hstored, hw, hsame, hfalse]

variable (hs : SnapshotOf schema h K stored loaded)
  (hrow : ∀ c ∈ schema.columns, Denotes h n (row c.name) (edited c.name))
  (hedited : ∀ c ∈ schema.columns, HasType schema.isInterface c.type (edited c.name))
  (hloaded : ∀ c ∈ schema.columns, HasType schema.isInterface c.type (loaded c.name))

include hs hrow hedited hloaded

theorem changedColumns_spec (hcolumns : columns ⊆ schema.columns) :
    ∃ names, changedColumns n h stored row columns = some names ∧ ∀ name, name ∈ names ↔
      ∃ c ∈ columns, c.name = name ∧ c.updatable = true ∧
        (schema.isInterface c.type = true ∨ edited c.name ≠ loaded c.name) := by
  induction columns with
  | nil => exact ⟨[], rfl, by simp⟩
  | cons c columns ih =>
    obtain ⟨hc, hsub⟩ := cons_subset.1 hcolumns
    obtain ⟨names, hnames, hiff⟩ := ih hsub
    cases hupd : c.updatable with
    | false => exact ⟨names, by simp [changedColumns, hupd, hnames], by simp [hiff, hupd]⟩
    | true =>
      obtain ⟨same, hsame, hsameiff⟩ :=
        unchanged_spec hs hc hupd (hrow c hc) (hedited c hc) (hloaded c hc)
      refine ⟨if same = true then names else c.name :: names, ?_, fun name => ?_⟩
      · rw [changedColumns, if_pos hupd, hsame, Option.bind_some, hnames, Option.map_some]
      · have hchanged : same = false ↔
            schema.isInterface c.type = true ∨ edited c.name ≠ loaded c.name := by
          rw [← Bool.not_eq_true, hsameiff, not_and_or, Bool.not_eq_false]
        cases same with
        | true =>
          have hnot := hchanged.not.1 (by simp)
          simp only [if_true, hiff, exists_mem_cons_iff, hnot, and_false, false_or]
        | false =>
          have hyes := hchanged.1 rfl
          rw [if_neg Bool.false_ne_true, mem_cons, hiff, exists_mem_cons_iff,
            eq_comm (a := name)]
          simp only [hupd, hyes, and_true]

/-- **The selected columns.** Key columns apart, they are the updatable ones whose value is another
tree, and those of an interface type. -/
theorem narrowToChanged_spec :
    ∃ selected, narrowToChanged schema n h stored row = some selected ∧
      ∀ c ∈ schema.columns, c.primary = false → (c.name ∈ selected ↔ c.updatable = true ∧
        (schema.isInterface c.type = true ∨ edited c.name ≠ loaded c.name)) := by
  obtain ⟨names, hnames, hiff⟩ := changedColumns_spec hs hrow hedited hloaded (List.Subset.refl _)
  have hinj : ∀ c ∈ schema.columns, ∀ d ∈ schema.columns, c.name = d.name → c = d :=
    fun c hc d hd => inj_on_of_nodup_map schema.nodup hc hd
  refine ⟨_, by rw [narrowToChanged, hnames, Option.map_some], fun c hc hprimary => ?_⟩
  have hmem : c.name ∈ names ↔ c.updatable = true ∧
      (schema.isInterface c.type = true ∨ edited c.name ≠ loaded c.name) := by
    rw [hiff]
    constructor
    · rintro ⟨d, hd, hname, hchanged⟩
      exact hinj d hd c hc hname ▸ hchanged
    · exact fun hchanged => ⟨c, hc, rfl, hchanged⟩
  rw [← hmem]
  split
  · -- no column is changed: the key columns are selected instead
    rename_i hnil
    subst hnil
    simp only [not_mem_nil, iff_false, mem_map, mem_filter, not_exists, not_and,
      and_imp]
    intro d hd hdprimary hname
    rw [hinj d hd c hc hname, hprimary] at hdprimary
    cases hdprimary
  · rfl

end Snapshots

end Gombit.Database.InMemory
