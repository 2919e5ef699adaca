import Gombit.Database.ScopeEdit
import Gombit.Foundations.Run
import Mathlib.Logic.Function.Basic

/-!
# Concurrent edits of a row in the admin

A PATCH of a model without a version column (`updateResource` in `admin/resources.go`) loads the row and
takes a snapshot of its values, applies the request to the values in memory, and updates the columns that
have changed since (`updateRow`, `database.ScopeEdit`). Requests of the same row interleave, the snapshot
of each being of the row as it was loaded. The request's code, and the hooks of the model, change the
values as they like, in place too, but they know no address in the snapshot.

* `sound_of_run`: the snapshot of a request in flight stays that of the row it has loaded.
* `assigned_iff`: the columns an update assigns are those it may assign that have changed, and those of
  an interface type.
* `WritesOnlyChanges`: updates assign exactly what has changed, the row ends with the last change to each
  column, and a deleted row stays deleted.
* `writesOnlyChanges_iff`: exactly when that holds of a run.
* `interface_reverted`: it fails when a column has an interface type. The column is written with every
  update, over what another request has written in the meantime.
-/

namespace Gombit.Admin.Patches

open Memory Database.InMemory List

variable {τ κ σ ι : Type}

/-! ## The model -/

/-- The values of a row, by column. -/
abbrev Row (τ κ σ : Type) : Type := String → ValTree τ κ σ

/-- A model, as far as an update reads it. -/
structure Registered (τ κ σ : Type) where
  schema : Schema τ
  /-- The timestamps that are set on every update. -/
  autoUpdate : String → Bool
  /-- The storage-backed columns that no admin field maps. -/
  omitOnUpdate : List String
  /-- The columns of the file fields. -/
  fileColumns : List String
  /-- The key of the file that a value names. -/
  fileKey : ValTree τ κ σ → String

/-- A PATCH in flight. -/
structure Patch (τ κ σ : Type) where
  heap : Heap τ κ σ
  inst : String → Val τ σ
  stored : StoredRow τ σ
  loaded : Row τ κ σ
  /-- The columns left out of the update, once they are known. -/
  omits : Option (List String)
  /-- The addresses that the request's code and the hooks can have. -/
  known : ℕ → Prop

/-- What an update of a row is made of. -/
structure Update (τ κ σ : Type) where
  loaded : Row τ κ σ
  edited : Row τ κ σ
  omits : List String
  assigned : List String
  /-- The values of the timestamps that are set on every update. -/
  stamp : Row τ κ σ

inductive Outcome
  | ok
  /-- 404: the row is gone. -/
  | notFound
  /-- 409: another request has replaced a file of the row. -/
  | conflict
  deriving DecidableEq

namespace Registered

variable (m : Registered τ κ σ)

/-- `updateOmits`. -/
def updateOmits (before now : Row τ κ σ) : List String :=
  m.omitOnUpdate ++ m.fileColumns.filter fun c => m.fileKey (now c) = m.fileKey (before c)

/-- `fileFence`: the row still has the files that were loaded. -/
def fileFence (before row : Row τ κ σ) : Bool :=
  m.fileColumns.all fun c => m.fileKey (row c) = m.fileKey (before c)

/-- The columns of the SET clause that GORM makes: the selected columns and the timestamps, but no key
column and none that is left out. -/
def assigned (omits selected : List String) : List String :=
  (m.schema.columns.filter fun c => c.updatable && !c.primary && !omits.contains c.name &&
    (selected.contains c.name || m.autoUpdate c.name)).map Column.name

end Registered

/-- The row that the update makes of a row. -/
def Update.set (m : Registered τ κ σ) (u : Update τ κ σ) (row : Row τ κ σ) : Row τ κ σ := fun column =>
  if column ∈ u.assigned then
    if m.autoUpdate column = true then u.stamp column else u.edited column
  else row column

/-- `updateRow`, and `updateFenced` for a model with file fields: `Updates` changes the row with the key
and inserts none, and `rowGone` tells the reason when there is no such row. -/
def updateRow (m : Registered τ κ σ) (u : Update τ κ σ) :
    Option (Row τ κ σ) → Outcome × Option (Row τ κ σ)
  | none => (.notFound, none)
  | some row =>
    if m.fileFence u.loaded row = true then (.ok, some (u.set m row)) else (.conflict, some row)

section Requests

variable [DecidableEq κ]

/-- The PATCH has read the row into the heap, and taken the snapshot. -/
structure Loads (m : Registered τ κ σ) (n : ℕ) (h : Heap τ κ σ) (row : Row τ κ σ) (p : Patch τ κ σ) :
    Prop where
  denotes : ∀ c ∈ m.schema.columns, Denotes h n (p.inst c.name) (row c.name)
  typed : ∀ c ∈ m.schema.columns, HasType m.schema.isInterface c.type (row c.name)
  closed : Closed (· < h.next) h
  refers : ∀ c ∈ m.schema.columns, Knows (· < h.next) (p.inst c.name)
  stored : storedValues m.schema n h p.inst = some (p.stored, p.heap)
  loaded : p.loaded = row
  omits : p.omits = none
  known : p.known = (· < h.next)

/-- What the request's code and the hooks do, one step: a cell is made or overwritten, a column gets a
value, or the handler finds the columns to leave out. -/
inductive Edits (m : Registered τ κ σ) : Patch τ κ σ → Patch τ κ σ → Prop
  | alloc (p : Patch τ κ σ) (c : Cell τ κ σ) (hc : KnowsCell p.known c) :
      Edits m p { p with
        heap := (p.heap.alloc c).2, known := fun a => p.known a ∨ a = (p.heap.alloc c).1 }
  | store (p : Patch τ κ σ) (a : ℕ) (c : Cell τ κ σ) (ha : p.known a) (hlt : a < p.heap.next)
      (hc : KnowsCell p.known c) : Edits m p { p with heap := p.heap.store a hlt c }
  | assign (p : Patch τ κ σ) (column : String) (v : Val τ σ) (hv : Knows p.known v) :
      Edits m p { p with inst := Function.update p.inst column v }
  | leaveOut (p : Patch τ κ σ) (now : Row τ κ σ) (n : ℕ)
      (hnow : ∀ c ∈ m.schema.columns, c.name ∈ m.fileColumns →
        Denotes p.heap n (p.inst c.name) (now c.name)) (hfirst : p.omits = none) :
      Edits m p { p with omits := some (m.updateOmits p.loaded now) }

/-- The requests in flight, and the row. -/
structure Server (τ κ σ ι : Type) where
  row : Option (Row τ κ σ)
  pending : ι → Option (Patch τ κ σ)

def Server.start (row : Row τ κ σ) : Server τ κ σ ι := ⟨some row, fun _ => none⟩

inductive Event (τ κ σ ι : Type)
  | load (i : ι)
  | edit (i : ι)
  | update (i : ι) (u : Update τ κ σ) (outcome : Outcome)
  /-- The request is refused, or rolled back. -/
  | fail (i : ι)
  | delete

variable [DecidableEq τ] [DecidableEq σ] [DecidableEq ι]

/-- The update that the PATCH makes in the end: its values are finite trees, and it is still of the row
that was loaded. -/
structure Issues (m : Registered τ κ σ) (n : ℕ) (p : Patch τ κ σ) (u : Update τ κ σ) : Prop where
  loaded : u.loaded = p.loaded
  denotes : ∀ c ∈ m.schema.columns, Denotes p.heap n (p.inst c.name) (u.edited c.name)
  typed : ∀ c ∈ m.schema.columns, HasType m.schema.isInterface c.type (u.edited c.name)
  key : ∀ c ∈ m.schema.columns, c.primary = true → u.edited c.name = u.loaded c.name
  omits : p.omits = some u.omits
  assigned : ∃ selected, narrowToChanged m.schema n p.heap p.stored p.inst = some selected ∧
    u.assigned = m.assigned u.omits selected

inductive Step (m : Registered τ κ σ) : Server τ κ σ ι → Event τ κ σ ι → Server τ κ σ ι → Prop
  | load {s : Server τ κ σ ι} {i : ι} {row : Row τ κ σ} {n : ℕ} {h : Heap τ κ σ} {p : Patch τ κ σ}
      (hidle : s.pending i = none) (hrow : s.row = some row) (hload : Loads m n h row p) :
      Step m s (.load i) { s with pending := Function.update s.pending i (some p) }
  | edit {s : Server τ κ σ ι} {i : ι} {p p' : Patch τ κ σ} (hp : s.pending i = some p)
      (hedit : Edits m p p') :
      Step m s (.edit i) { s with pending := Function.update s.pending i (some p') }
  | update {s : Server τ κ σ ι} {i : ι} {p : Patch τ κ σ} {n : ℕ} {u : Update τ κ σ}
      (hp : s.pending i = some p) (hissues : Issues m n p u) :
      Step m s (.update i u (updateRow m u s.row).1)
        ⟨(updateRow m u s.row).2, Function.update s.pending i none⟩
  | fail {s : Server τ κ σ ι} {i : ι} {p : Patch τ κ σ} (hp : s.pending i = some p) :
      Step m s (.fail i) { s with pending := Function.update s.pending i none }
  | delete {s : Server τ κ σ ι} : Step m s .delete { s with row := none }

end Requests

/-! ## The property -/

/-- The update has another value for the column than was loaded. -/
def Update.Changes (u : Update τ κ σ) (column : String) : Prop := u.edited column ≠ u.loaded column

/-- The column is one that the update assigns if it is selected. -/
def Update.MayAssign (u : Update τ κ σ) (c : Column τ) : Prop :=
  c.updatable = true ∧ c.primary = false ∧ c.name ∉ u.omits

/-- The event is a committed update that changes the column. -/
def Event.Changes (column : String) (e : Event τ κ σ ι) : Prop :=
  ∃ i u, e = .update i u .ok ∧ u.Changes column

/-- The value is that of the last committed change to the column, or else the first one. -/
def LastChange (es : List (Event τ κ σ ι)) (column : String) (first v : ValTree τ κ σ) : Prop :=
  (∃ a i u b, es = a ++ .update i u .ok :: b ∧ u.Changes column ∧ v = u.edited column ∧
    ∀ e ∈ b, ¬e.Changes column) ∨
  ((∀ e ∈ es, ¬e.Changes column) ∧ v = first)

/-- **PATCHes write only what they change**, the timestamps of updates aside. -/
structure WritesOnlyChanges (m : Registered τ κ σ) (row : Row τ κ σ) (es : List (Event τ κ σ ι))
    (s : Server τ κ σ ι) : Prop where
  exactly : ∀ i u, Event.update i u .ok ∈ es → ∀ c ∈ m.schema.columns, m.autoUpdate c.name = false →
    (c.name ∈ u.assigned ↔ u.Changes c.name)
  final : ∀ row', s.row = some row' → ∀ c ∈ m.schema.columns, m.autoUpdate c.name = false →
    LastChange es c.name (row c.name) (row' c.name)
  gone : Event.delete ∈ es → s.row = none

/-! ## The snapshots of the requests in flight -/

section Soundness

variable [DecidableEq κ] {m : Registered τ κ σ} {p p' : Patch τ κ σ} {lo hi : ℕ}

/-- The snapshot of a request is in the cells from `lo` to `hi`, and the request's code has no address
there: what it holds, and what it finds in cells it knows, refers to cells it knows. -/
structure Sound (m : Registered τ κ σ) (lo hi : ℕ) (p : Patch τ κ σ) : Prop where
  snapshot : SnapshotOf m.schema p.heap (Within lo hi) p.stored p.loaded
  typed : ∀ c ∈ m.schema.columns, HasType m.schema.isInterface c.type (p.loaded c.name)
  below : hi ≤ p.heap.next
  apart : ∀ a, p.known a → ¬Within lo hi a
  closed : Closed p.known p.heap
  refers : ∀ c ∈ m.schema.columns, Knows p.known (p.inst c.name)

theorem sound_of_loads {n : ℕ} {h : Heap τ κ σ} {row : Row τ κ σ} (hload : Loads m n h row p) :
    Sound m h.next p.heap.next p := by
  obtain ⟨hden, htyped, hclosed, hrefers, hstored, rfl, -, hknown⟩ := hload
  obtain ⟨stored, h', heq, hfresh, hsnapshot⟩ := storedValues_spec hden
  obtain ⟨rfl, rfl⟩ := Prod.mk.inj (Option.some.inj (heq.symm.trans hstored))
  refine ⟨hsnapshot, htyped, le_rfl, ?_, ?_, ?_⟩
  · intro a ha hwithin
    rw [hknown] at ha
    exact absurd hwithin.1 (not_le.2 ha)
  · intro a c ha hc
    rw [hknown] at ha ⊢
    exact hclosed a c ha ((hfresh.kept a ha).symm.trans hc)
  · rw [hknown]
    exact hrefers

/-- **Steps of a request.** Whatever its code does leaves the snapshot as it is. -/
theorem Sound.edits (hs : Sound m lo hi p) (hedit : Edits m p p') : Sound m lo hi p' := by
  cases hedit with
  | alloc c hc =>
    have hgrow : ∀ a, p.known a → p.known a ∨ a = (p.heap.alloc c).1 := fun a ha => .inl ha
    refine ⟨hs.snapshot.frame fun a ha => ?_, hs.typed, ?_, ?_, ?_, fun d hd => (hs.refers d hd).mono hgrow⟩
    · exact (extends_alloc p.heap c).kept a (ha.2.trans_le hs.below)
    · exact hs.below.trans (extends_alloc p.heap c).next_le
    · rintro a (ha | rfl)
      · exact hs.apart a ha
      · exact fun hwithin => absurd hwithin.2 (not_lt.2 hs.below)
    · rintro a d ha hd v hv
      by_cases hnew : a = (p.heap.alloc c).1
      · subst hnew
        obtain rfl : c = d := Option.some.inj ((cell_alloc p.heap c).symm.trans hd)
        exact (hc v hv).mono hgrow
      · have hold : p.heap.cell a = some d := (if_neg hnew).symm.trans hd
        exact (hs.closed a d (ha.resolve_right hnew) hold v hv).mono hgrow
  | store a c ha hlt hc =>
    refine ⟨hs.snapshot.frame fun b hb => ?_, hs.typed, hs.below, hs.apart, ?_, hs.refers⟩
    · exact if_neg fun heq : b = a => hs.apart a ha (heq ▸ hb)
    · intro b d hb hd
      by_cases hba : b = a
      · obtain rfl : c = d := Option.some.inj ((if_pos hba).symm.trans hd)
        exact hc
      · exact hs.closed b d hb ((if_neg hba).symm.trans hd)
  | assign column v hv =>
    refine ⟨hs.snapshot, hs.typed, hs.below, hs.apart, hs.closed, fun c hc => ?_⟩
    by_cases hcol : c.name = column
    · simpa [hcol] using hv
    · simpa [hcol] using hs.refers c hc
  | leaveOut now n hnow hfirst =>
    exact ⟨hs.snapshot, hs.typed, hs.below, hs.apart, hs.closed, hs.refers⟩

variable [DecidableEq τ] [DecidableEq σ] [DecidableEq ι] {s s' : Server τ κ σ ι} {e : Event τ κ σ ι}
  {n : ℕ} {u : Update τ κ σ}

/-- **What an update assigns.** -/
theorem assigned_iff (hs : Sound m lo hi p) (hissues : Issues m n p u) {c : Column τ}
    (hc : c ∈ m.schema.columns) (hauto : m.autoUpdate c.name = false) :
    c.name ∈ u.assigned ↔
      u.MayAssign c ∧ (m.schema.isInterface c.type = true ∨ u.Changes c.name) := by
  obtain ⟨selected, hselected, hassigned⟩ := hissues.assigned
  obtain ⟨selected', hselected', hiff⟩ :=
    narrowToChanged_spec hs.snapshot hissues.denotes hissues.typed hs.typed
  obtain rfl := Option.some.inj (hselected'.symm.trans hselected)
  have hmem : c.name ∈ u.assigned ↔ c.updatable = true ∧ c.primary = false ∧ c.name ∉ u.omits ∧
      c.name ∈ selected' := by
    rw [hassigned, Registered.assigned, mem_map]
    constructor
    · rintro ⟨d, hd, hname⟩
      obtain ⟨hd, htest⟩ := mem_filter.1 hd
      obtain rfl := inj_on_of_nodup_map m.schema.nodup hd hc hname
      simpa [hauto, and_assoc] using htest
    · intro htest
      exact ⟨c, mem_filter.2 ⟨hc, by simpa [hauto, and_assoc] using htest⟩, rfl⟩
  rw [hmem, Update.MayAssign, Update.Changes, hissues.loaded]
  constructor
  · rintro ⟨hupd, hprimary, homits, hsel⟩
    exact ⟨⟨hupd, hprimary, homits⟩, ((hiff c hc hprimary).1 hsel).2⟩
  · rintro ⟨⟨hupd, hprimary, homits⟩, hchanged⟩
    exact ⟨hupd, hprimary, homits, (hiff c hc hprimary).2 ⟨hupd, hchanged⟩⟩

/-- An update assigns the columns of `assigned_iff`. -/
def Event.Narrowed (m : Registered τ κ σ) : Event τ κ σ ι → Prop
  | .update _ u _ => ∀ c ∈ m.schema.columns, m.autoUpdate c.name = false →
      (c.name ∈ u.assigned ↔
        u.MayAssign c ∧ (m.schema.isInterface c.type = true ∨ u.Changes c.name))
  | _ => True

/-- All requests in flight have their snapshot. -/
def AllSound (m : Registered τ κ σ) (s : Server τ κ σ ι) : Prop :=
  ∀ i p, s.pending i = some p → ∃ lo hi, Sound m lo hi p

omit [DecidableEq τ] [DecidableEq σ] in
theorem AllSound.set (hs : AllSound m s) (i : ι) {x : Option (Patch τ κ σ)} {row : Option (Row τ κ σ)}
    (hx : ∀ p, x = some p → ∃ lo hi, Sound m lo hi p) :
    AllSound m ⟨row, Function.update s.pending i x⟩ := by
  intro j p hp
  by_cases hij : j = i
  · subst hij
    exact hx p (by simpa using hp)
  · exact hs j p (by simpa [hij] using hp)

theorem sound_step (hstep : Step m s e s') (hs : AllSound m s) : AllSound m s' ∧ e.Narrowed m := by
  cases hstep with
  | load hidle hrow hload =>
    refine ⟨hs.set _ fun p hp => ?_, trivial⟩
    obtain rfl := Option.some.inj hp
    exact ⟨_, _, sound_of_loads hload⟩
  | edit hp hedit =>
    refine ⟨hs.set _ fun p hp' => ?_, trivial⟩
    obtain rfl := Option.some.inj hp'
    obtain ⟨lo, hi, hsound⟩ := hs _ _ hp
    exact ⟨lo, hi, hsound.edits hedit⟩
  | update hp hissues =>
    obtain ⟨lo, hi, hsound⟩ := hs _ _ hp
    exact ⟨hs.set _ nofun, fun c hc => assigned_iff hsound hissues hc⟩
  | fail hp => exact ⟨hs.set _ nofun, trivial⟩
  | delete => exact ⟨hs, trivial⟩

/-- **Runs.** Every update of a run assigns the columns of `assigned_iff`. -/
theorem sound_of_run {row : Row τ κ σ} {es : List (Event τ κ σ ι)}
    (hrun : Run (Step m) (Server.start row) es s) : ∀ e ∈ es, e.Narrowed m :=
  hrun.events (I := AllSound m) (fun _ _ _ hstep hs => sound_step hstep hs) nofun

end Soundness

/-! ## The row at the end -/

section Rows

variable {es : List (Event τ κ σ ι)} {e : Event τ κ σ ι} {column : String} {first v : ValTree τ κ σ}

theorem LastChange.snoc (h : LastChange es column first v) (he : ¬e.Changes column) :
    LastChange (es ++ [e]) column first v := by
  rcases h with ⟨a, i, u, b, rfl, hu, hv, hb⟩ | ⟨hes, hv⟩
  · refine .inl ⟨a, i, u, b ++ [e], by simp, hu, hv, fun e' he' => ?_⟩
    rcases mem_append.1 he' with he' | he'
    · exact hb e' he'
    · exact mem_singleton.1 he' ▸ he
  · refine .inr ⟨fun e' he' => ?_, hv⟩
    rcases mem_append.1 he' with he' | he'
    · exact hes e' he'
    · exact mem_singleton.1 he' ▸ he

theorem lastChange_update {i : ι} {u : Update τ κ σ} (hu : u.Changes column) :
    LastChange (es ++ [.update i u .ok]) column first (u.edited column) :=
  .inl ⟨es, i, u, [], rfl, hu, rfl, nofun⟩

variable [DecidableEq τ] [DecidableEq κ] [DecidableEq σ] [DecidableEq ι] {m : Registered τ κ σ}
  {s s' : Server τ κ σ ι}

/-- **What a step does to the row.** It stays, it is deleted, or a committed update assigns to it. -/
theorem step_row (hstep : Step m s e s') :
    (s'.row = s.row ∧ ∀ i u, e ≠ .update i u .ok) ∨ s'.row = none ∨
      ∃ i u row, e = .update i u .ok ∧ s.row = some row ∧ s'.row = some (u.set m row) := by
  cases hstep with
  | load | edit | fail => exact .inl ⟨rfl, nofun⟩
  | @update i p n u hp hissues =>
    cases hrow : s.row with
    | none => exact .inr (.inl rfl)
    | some row =>
      by_cases hfence : m.fileFence u.loaded row = true
      · exact .inr (.inr ⟨i, u, row, by simp [updateRow, hfence], rfl, by simp [updateRow, hfence]⟩)
      · exact .inl ⟨by simp [updateRow, hfence], by simp [updateRow, hfence]⟩
  | delete => exact .inr (.inl rfl)

theorem gone_step (hstep : Step m s e s') (hgone : s.row = none) : s'.row = none := by
  rcases step_row hstep with ⟨hrow, -⟩ | hnone | ⟨i, u, row, -, hrow, -⟩
  · exact hrow.trans hgone
  · exact hnone
  · cases hgone.symm.trans hrow

/-- **Deleted rows.** No update brings a row back. -/
theorem gone_of_run (hrun : Run (Step m) s es s') (hdelete : Event.delete ∈ es) : s'.row = none := by
  obtain ⟨a, b, rfl⟩ := append_of_mem hdelete
  obtain ⟨s₁, -, hrest⟩ := hrun.append_inv
  obtain ⟨s₂, hstep, hrest⟩ := hrest.cons_inv
  cases hstep
  exact hrest.preserves (I := fun s => s.row = none)
    (fun _ _ _ hstep hgone => gone_step hstep hgone) rfl

/-- **The last change.** Where updates assign exactly what they change, a column has the value of the
last change to it. -/
theorem lastChange_of_run {row : Row τ κ σ} (hrun : Run (Step m) (Server.start row) es s)
    (hauto : m.autoUpdate column = false)
    (hexact : ∀ i u, Event.update i u .ok ∈ es → (column ∈ u.assigned ↔ u.Changes column)) :
    ∀ row', s.row = some row' → LastChange es column (row column) (row' column) := by
  revert hexact
  refine hrun.history_induction (I := fun es s => (∀ i u, Event.update i u .ok ∈ es →
    (column ∈ u.assigned ↔ u.Changes column)) → ∀ row', s.row = some row' →
      LastChange es column (row column) (row' column)) ?_ ?_
  · rintro - row' hrow'
    obtain rfl := Option.some.inj hrow'
    exact .inr ⟨nofun, rfl⟩
  · intro es s e s' _ hstep ih hexact row' hrow'
    have ih := ih fun i u hu => hexact i u (mem_append_left _ hu)
    rcases step_row hstep with ⟨hrow, hother⟩ | hnone | ⟨i, u, row₁, rfl, hrow, hset⟩
    · refine (ih row' (hrow ▸ hrow')).snoc ?_
      rintro ⟨i, u, rfl, -⟩
      exact hother i u rfl
    · cases hnone.symm.trans hrow'
    · obtain rfl := Option.some.inj (hset.symm.trans hrow')
      have hiff := hexact i u (mem_append_right _ (mem_singleton_self _))
      by_cases hchanges : u.Changes column
      · have hvalue : u.set m row₁ column = u.edited column := by
          simp [Update.set, hiff.2 hchanges, hauto]
        exact hvalue ▸ lastChange_update hchanges
      · have hvalue : u.set m row₁ column = row₁ column := if_neg (hiff.not.2 hchanges)
        refine hvalue ▸ (ih row₁ hrow).snoc ?_
        rintro ⟨j, u', heq, hu'⟩
        obtain ⟨-, rfl, -⟩ := Event.update.inj heq
        exact hchanges hu'

end Rows

/-! ## When PATCHes write only what they change -/

section Main

variable [DecidableEq τ] [DecidableEq κ] [DecidableEq σ] [DecidableEq ι] {m : Registered τ κ σ}
  {row : Row τ κ σ} {es : List (Event τ κ σ ι)} {s : Server τ κ σ ι}

/-- **When PATCHes write only what they change.** In a run, all of them do exactly when each committed
update changes all columns of interface types that it may assign, and none that it may not. -/
theorem writesOnlyChanges_iff (hrun : Run (Step m) (Server.start row) es s) :
    WritesOnlyChanges m row es s ↔
      ∀ i u, Event.update i u .ok ∈ es → ∀ c ∈ m.schema.columns, m.autoUpdate c.name = false →
        (u.MayAssign c → m.schema.isInterface c.type = true → u.Changes c.name) ∧
        (u.Changes c.name → u.MayAssign c) := by
  have hassigned : ∀ i u, Event.update i u .ok ∈ es → ∀ c ∈ m.schema.columns,
      m.autoUpdate c.name = false → (c.name ∈ u.assigned ↔
        u.MayAssign c ∧ (m.schema.isInterface c.type = true ∨ u.Changes c.name)) :=
    fun i u hu => sound_of_run hrun _ hu
  constructor
  · intro hwrites i u hu c hc hauto
    have hexact := hwrites.exactly i u hu c hc hauto
    rw [hassigned i u hu c hc hauto] at hexact
    exact ⟨fun hmay htype => hexact.1 ⟨hmay, .inl htype⟩, fun hchanges => (hexact.2 hchanges).1⟩
  · intro hcond
    have hexact : ∀ i u, Event.update i u .ok ∈ es → ∀ c ∈ m.schema.columns,
        m.autoUpdate c.name = false → (c.name ∈ u.assigned ↔ u.Changes c.name) := by
      intro i u hu c hc hauto
      obtain ⟨hiface, hmay⟩ := hcond i u hu c hc hauto
      rw [hassigned i u hu c hc hauto]
      constructor
      · rintro ⟨hassign, htype | hchanges⟩
        · exact hiface hassign htype
        · exact hchanges
      · exact fun hchanges => ⟨hmay hchanges, .inr hchanges⟩
    exact ⟨hexact, fun row' hrow' c hc hauto => lastChange_of_run hrun hauto
      (fun i u hu => hexact i u hu c hc hauto) row' hrow', gone_of_run hrun⟩

end Main

/-! ## A column of an interface type -/

inductive GoType
  | text
  | any
  deriving DecidableEq

/-- A model with a column of type `any`. -/
def pages : Registered GoType Unit String where
  schema :=
    { columns := [⟨"id", .text, true, true⟩, ⟨"title", .text, true, false⟩, ⟨"extra", .any, true, false⟩]
      isInterface := fun t => t = .any
      nodup := by decide }
  autoUpdate _ := false
  omitOnUpdate := []
  fileColumns := []
  fileKey _ := ""

structure Page where
  title : String
  extra : Option String

namespace Page

variable (x y z : Page)

def text (s : String) : ValTree GoType Unit String := .node (.scalar .text s) fun _ => none

def row : Row GoType Unit String := fun c =>
  if c = "title" then text x.title
  else if c = "extra" then
    match x.extra with
    | none => .node (.null .any) fun _ => none
    | some s => .node (.iface .any) (onlyTree (text s))
  else text "1"

def inst : String → Val GoType String := fun c =>
  if c = "title" then .scalar .text x.title
  else if c = "extra" then
    match x.extra with
    | none => .null .any
    | some s => .iface .any (.scalar .text s)
  else .scalar .text "1"

def noCells : Heap GoType Unit String := ⟨fun _ => none, 0, fun _ _ => rfl⟩

/-- A PATCH that has loaded the page `x` and has made `y` of it. -/
def patch (omits : Option (List String)) : Patch GoType Unit String where
  heap := noCells
  inst := y.inst
  stored := [("id", some (.scalar .text "1")), ("title", some (.scalar .text x.title)),
    ("extra", x.extra.map (.scalar .text))]
  loaded := x.row
  omits := omits
  known := (· < 0)

def update : Update GoType Unit String where
  loaded := x.row
  edited := y.row
  omits := []
  assigned := (if y.title = x.title then [] else ["title"]) ++ ["extra"]
  stamp := x.row

theorem denotes (h : Heap GoType Unit String) (c : String) : Denotes h 2 (x.inst c) (x.row c) := by
  have htext : ∀ n s, Denotes h (n + 1) (.scalar .text s) (text s) :=
    fun n s => denotes_node rfl fun _ => .none
  obtain ⟨title, extra⟩ := x
  unfold inst row
  split
  · exact htext 1 title
  · split
    · cases extra with
      | none => exact denotes_node rfl fun _ => .none
      | some s => exact denotes_node rfl (rel_onlyTree (htext 0 s))
    · exact htext 1 "1"

theorem typed : ∀ c ∈ pages.schema.columns, HasType pages.schema.isInterface c.type (x.row c.name) := by
  obtain ⟨title, extra⟩ := x
  cases extra <;> simp [pages, row, HasType, text, Label.type, onlyTree, ValTree.type]

theorem knows (K : ℕ → Prop) (c : String) : Knows K (x.inst c) := by
  obtain ⟨title, extra⟩ := x
  unfold inst
  split
  · exact knows_scalar _ _ _
  · split
    · cases extra with
      | none => exact knows_null _ _
      | some s => exact knows_iface_iff.2 (knows_scalar _ _ _)
    · exact knows_scalar _ _ _

theorem loads : Loads pages 2 noCells x.row (x.patch x none) where
  denotes c _ := x.denotes noCells c.name
  typed := x.typed
  closed := nofun
  refers c _ := x.knows _ c.name
  stored := by
    obtain ⟨title, extra⟩ := x
    cases extra <;> rfl
  loaded := rfl
  omits := rfl
  known := rfl

theorem issues : Issues pages 2 (x.patch y (some [])) (x.update y) where
  loaded := rfl
  denotes c _ := y.denotes noCells c.name
  typed := y.typed
  key := by simp [pages, update, row]
  omits := rfl
  assigned := by
    refine ⟨(x.update y).assigned, ?_, ?_⟩
    · obtain ⟨title, extra⟩ := x
      obtain ⟨title', extra'⟩ := y
      cases extra <;> cases extra' <;> by_cases htitle : title' = title <;>
        simp [narrowToChanged, changedColumns, unchanged, pages, patch, update, inst, valuesEqual,
          equalStep, Val.type, htitle, lookup_cons]
    · by_cases htitle : y.title = x.title <;>
        simp [Registered.assigned, pages, update, htitle]

/-- The page after the update: the column `extra` is always written. -/
theorem updateRow_eq : updateRow pages (x.update y) (some z.row) =
    (.ok, some (row ⟨if y.title = x.title then z.title else y.title, y.extra⟩)) := by
  have hset : (x.update y).set pages z.row =
      row ⟨if y.title = x.title then z.title else y.title, y.extra⟩ := by
    funext c
    by_cases htitle : y.title = x.title <;> by_cases hc : c = "title" <;>
      by_cases hc' : c = "extra" <;> simp [Update.set, update, row, pages, htitle, hc, hc']
  have hfence : pages.fileFence (x.update y).loaded z.row = true := rfl
  rw [updateRow, if_pos hfence, hset]

theorem edit_title : Edits pages (x.patch x none) (x.patch ⟨y.title, x.extra⟩ none) := by
  have hinst : inst ⟨y.title, x.extra⟩ =
      Function.update x.inst "title" (.scalar .text y.title) := by
    funext c
    by_cases hc : c = "title" <;> simp [inst, hc]
  simpa only [patch, hinst] using Edits.assign (x.patch x none) "title" _ (knows_scalar _ _ _)

theorem edit_extra : Edits pages (x.patch ⟨y.title, x.extra⟩ none) (x.patch y none) := by
  have hinst : y.inst = Function.update (inst ⟨y.title, x.extra⟩) "extra" (y.inst "extra") := by
    funext c
    by_cases hc : c = "extra"
    · simp [hc]
    · simp [inst, hc]
  have hedit := Edits.assign (m := pages) (x.patch ⟨y.title, x.extra⟩ none) "extra" _
    (y.knows _ "extra")
  simp only [patch] at hedit ⊢
  rwa [← hinst] at hedit

/-- A PATCH that has loaded the page `x`, and finds `z` when it writes `y`. -/
theorem run_update {s : Server GoType Unit String Bool} {i : Bool}
    (hp : s.pending i = some (x.patch x none)) (hrow : s.row = some z.row) :
    ∃ s', Run (Step pages) s [.edit i, .edit i, .edit i, .update i (x.update y) .ok] s' ∧
      s'.row = some (row ⟨if y.title = x.title then z.title else y.title, y.extra⟩) ∧
      s'.pending = Function.update s.pending i none := by
  have hstep := Step.update (ι := Bool) (m := pages)
    (s := ⟨s.row, Function.update s.pending i (some (x.patch y (some [])))⟩)
    (Function.update_self i _ _) (x.issues y)
  simp only [hrow, updateRow_eq, Function.update_idem] at hstep
  refine ⟨⟨some (row ⟨if y.title = x.title then z.title else y.title, y.extra⟩),
    Function.update s.pending i none⟩, .cons (.edit hp (x.edit_title y))
      (.cons (.edit (Function.update_self i _ _) (x.edit_extra y))
        (.cons (.edit (Function.update_self i _ _) (.leaveOut _ x.row 0 nofun rfl)) ?_)), rfl, rfl⟩
  simp only [Function.update_idem, hrow]
  exact .single hstep

/-- Two PATCHes load the page `x`; one of them writes `y`, and then the other writes `z`. -/
def twoPatches : List (Event GoType Unit String Bool) :=
  [.load false, .load true, .edit true, .edit true, .edit true, .update true (x.update y) .ok,
    .edit false, .edit false, .edit false, .update false (x.update z) .ok]

theorem run_twoPatches : ∃ s row, Run (Step pages) (Server.start x.row) (twoPatches x y z) s ∧
    s.row = some row ∧ row "extra" = z.row "extra" := by
  have hload : ∀ (s : Server GoType Unit String Bool) i, s.pending i = none → s.row = some x.row →
      Step pages s (.load i) { s with pending := Function.update s.pending i (some (x.patch x none)) } :=
    fun s i hidle hrow => .load hidle hrow x.loads
  obtain ⟨s₁, hrun₁, hrow₁, hpending₁⟩ := x.run_update y x (i := true)
    (s := ⟨some x.row, Function.update (Function.update (fun _ => none) false (some (x.patch x none)))
      true (some (x.patch x none))⟩) rfl rfl
  obtain ⟨s₂, hrun₂, hrow₂, -⟩ := x.run_update z _ (i := false) (s := s₁) (by rw [hpending₁]; rfl) hrow₁
  exact ⟨s₂, _, .cons (hload _ false rfl rfl) (.cons (hload _ true rfl rfl) (hrun₁.append hrun₂)),
    hrow₂, rfl⟩

end Page

theorem changes_extra (title title' value : String) :
    (Page.update ⟨title, none⟩ ⟨title', some value⟩).Changes "extra" := by
  intro heq
  simp [Page.update, Page.row] at heq

/-- Two PATCHes at a time that both change the column of type `any`. -/
theorem writesOnlyChanges_two : ∃ s : Server GoType Unit String Bool,
    WritesOnlyChanges pages (Page.row ⟨"a", none⟩)
      (Page.twoPatches ⟨"a", none⟩ ⟨"a", some "x"⟩ ⟨"b", some "y"⟩) s := by
  obtain ⟨s, _, hrun, -⟩ := Page.run_twoPatches ⟨"a", none⟩ ⟨"a", some "x"⟩ ⟨"b", some "y"⟩
  refine ⟨s, (writesOnlyChanges_iff hrun).2 ?_⟩
  intro i u hu c hc _
  obtain ⟨title, value, rfl⟩ : ∃ title value, u = Page.update ⟨"a", none⟩ ⟨title, some value⟩ := by
    simp only [Page.twoPatches, mem_cons, not_mem_nil, or_false, reduceCtorEq, false_or,
      Event.update.injEq, and_true] at hu
    rcases hu with ⟨-, rfl⟩ | ⟨-, rfl⟩ <;> exact ⟨_, _, rfl⟩
  simp only [pages, mem_cons, not_mem_nil, or_false] at hc
  rcases hc with rfl | rfl | rfl
  · exact ⟨fun _ htype => (by cases htype), fun hchanges => absurd rfl hchanges⟩
  · exact ⟨fun _ htype => (by cases htype), fun _ => ⟨rfl, rfl, nofun⟩⟩
  · exact ⟨fun _ _ => changes_extra _ _ _, fun _ => ⟨rfl, rfl, nofun⟩⟩

/-- **A change that is reverted.** While one PATCH changes the title, another changes the column of type
`any`. The first one then writes the value it has loaded over it. -/
theorem interface_reverted : ∃ (es : List (Event GoType Unit String Bool))
    (s : Server GoType Unit String Bool) (row : Row GoType Unit String),
    Run (Step pages) (Server.start (Page.row ⟨"a", none⟩)) es s ∧
      Event.update true (Page.update ⟨"a", none⟩ ⟨"a", some "x"⟩) .ok ∈ es ∧
      (Page.update ⟨"a", none⟩ ⟨"a", some "x"⟩).Changes "extra" ∧
      Event.update false (Page.update ⟨"a", none⟩ ⟨"b", none⟩) .ok ∈ es ∧
      ¬(Page.update ⟨"a", none⟩ ⟨"b", none⟩).Changes "extra" ∧
      s.row = some row ∧ row "extra" = Page.row ⟨"a", none⟩ "extra" ∧
      ¬WritesOnlyChanges pages (Page.row ⟨"a", none⟩) es s := by
  obtain ⟨s, row, hrun, hrow, hextra⟩ :=
    Page.run_twoPatches ⟨"a", none⟩ ⟨"a", some "x"⟩ ⟨"b", none⟩
  refine ⟨_, s, row, hrun, by simp [Page.twoPatches], changes_extra _ _ _, by simp [Page.twoPatches],
    not_not.2 rfl, hrow, hextra, ?_⟩
  intro hwrites
  refine (hwrites.exactly false (Page.update ⟨"a", none⟩ ⟨"b", none⟩) (by simp [Page.twoPatches])
    ⟨"extra", .any, true, false⟩ (by simp [pages]) rfl).1 ?_ rfl
  simp [Page.update]

end Gombit.Admin.Patches
