import Mathlib.Data.List.Nodup

/-!
# Rows of a database table

A table is the list of its rows, in the order they were inserted. Each row has a key, and no two
rows of a table share one (`Keyed`).

* `updateWhere p f`: `UPDATE … SET f WHERE p`, and `affected p`, the number of rows it changes.
* `byKey`: the row with a given key.
* `Evolves R`: every row of the earlier table is still there, changed as the relation `R` allows.
-/

namespace Gombit.Rows

open List

variable {ρ : Type*} {key : ρ → ℕ} {p : ρ → Bool} {f : ρ → ρ} {rows rows' : List ρ} {r r' : ρ}

/-- `UPDATE … SET f WHERE p`. -/
def updateWhere (p : ρ → Bool) (f : ρ → ρ) (rows : List ρ) : List ρ :=
  rows.map fun r => if p r then f r else r

/-- `RowsAffected` of `updateWhere p`. -/
def affected (p : ρ → Bool) (rows : List ρ) : ℕ := rows.countP p

/-- The row with the key. -/
def byKey (key : ρ → ℕ) (rows : List ρ) (k : ℕ) : Option ρ := rows.find? fun r => decide (key r = k)

/-- No two rows have the same key. -/
def Keyed (key : ρ → ℕ) (rows : List ρ) : Prop := (rows.map key).Nodup

theorem mem_updateWhere : r' ∈ updateWhere p f rows ↔ ∃ r ∈ rows, (if p r then f r else r) = r' :=
  mem_map

/-- An update changes no column `g` that `f` leaves alone. -/
theorem map_updateWhere {α : Type*} {g : ρ → α} (h : ∀ r, g (f r) = g r) :
    (updateWhere p f rows).map g = rows.map g := by
  rw [updateWhere, map_map]
  refine map_congr_left fun r _ => ?_
  by_cases hp : p r <;> simp [hp, h]

theorem updateWhere_eq_self (h : ∀ r ∈ rows, p r = false) : updateWhere p f rows = rows := by
  rw [updateWhere]
  exact (map_congr_left fun r hr => by simp [h r hr]).trans (map_id' rows)

theorem Keyed.updateWhere (h : Keyed key rows) (hf : ∀ r, key (f r) = key r) :
    Keyed key (updateWhere p f rows) := by
  unfold Keyed
  rw [map_updateWhere hf]
  exact h

theorem Keyed.eq (h : Keyed key rows) (hr : r ∈ rows) (hr' : r' ∈ rows) (heq : key r = key r') :
    r = r' :=
  inj_on_of_nodup_map h hr hr' heq

theorem Keyed.append (h : Keyed key rows) (hnew : ∀ r ∈ rows, key r ≠ key r') :
    Keyed key (rows ++ [r']) := by
  unfold Keyed
  rw [map_append, map_singleton, nodup_append]
  refine ⟨h, nodup_singleton _, ?_⟩
  intro k hk k' hk'
  obtain ⟨r, hr, rfl⟩ := mem_map.1 hk
  rw [mem_singleton.1 hk']
  exact hnew r hr

theorem Keyed.filter (h : Keyed key rows) : Keyed key (rows.filter p) :=
  h.sublist (filter_sublist.map key)

theorem mem_of_byKey {k : ℕ} (h : byKey key rows k = some r) : r ∈ rows ∧ key r = k :=
  ⟨mem_of_find?_eq_some h, by simpa using List.find?_some h⟩

theorem Keyed.byKey_eq (h : Keyed key rows) (hr : r ∈ rows) : byKey key rows (key r) = some r := by
  obtain ⟨r', hfound⟩ : ∃ r', byKey key rows (key r) = some r' := by
    rw [← Option.isSome_iff_exists, byKey, List.find?_isSome]
    exact ⟨r, hr, by simp⟩
  obtain ⟨hr', hkey⟩ := mem_of_byKey hfound
  rw [hfound, h.eq hr' hr hkey]

/-- A change of every row that keeps the keys changes the row that is found. -/
theorem byKey_map (h : ∀ r ∈ rows, key (f r) = key r) (k : ℕ) :
    byKey key (rows.map f) k = (byKey key rows k).map f := by
  induction rows with
  | nil => rfl
  | cons r rows ih =>
    have hr := h r mem_cons_self
    have hrows := ih fun r' hr' => h r' (mem_cons_of_mem _ hr')
    simp only [byKey, map_cons, List.find?_cons, hr] at hrows ⊢
    split
    · rfl
    · exact hrows

/-- In a keyed table a condition that holds of one row only selects that row. -/
theorem Keyed.affected_le_one (h : Keyed key rows) {k : ℕ} (hp : ∀ r, p r = true → key r = k) :
    affected p rows ≤ 1 := by
  rw [affected, countP_eq_length_filter]
  have hsame : ∀ r ∈ rows.filter p, key r = k := fun r hr => hp r (mem_filter.1 hr).2
  have hnodup : ((rows.filter p).map key).Nodup := h.filter
  rw [map_congr_left hsame, map_const'] at hnodup
  exact nodup_replicate.1 hnodup

/-- An update that gives `q` to no row has no more rows with `q` afterwards. -/
theorem countP_updateWhere_le {q : ρ → Bool} (hf : ∀ r, p r = true → q (f r) = true → q r = true) :
    (updateWhere p f rows).countP q ≤ rows.countP q := by
  rw [updateWhere, countP_map]
  refine countP_mono_left fun r _ hq => ?_
  by_cases hp : p r = true
  · exact hf r hp (by simpa [hp] using hq)
  · simpa [hp] using hq

/-- An update that selects one row with `q`, and leaves none of the rows it changes with `q`,
leaves one row fewer with `q`. -/
theorem countP_updateWhere_lt {q : ρ → Bool} (hf : ∀ r, p r = true → q (f r) = false)
    (hr : r ∈ rows) (hp : p r = true) (hq : q r = true) :
    (updateWhere p f rows).countP q + 1 ≤ rows.countP q := by
  have hle : ∀ rows : List ρ, (updateWhere p f rows).countP q ≤ rows.countP q :=
    fun rows => countP_updateWhere_le fun r hpr hqr => by simp [hf r hpr] at hqr
  obtain ⟨l, l', rfl⟩ := append_of_mem hr
  have hl := hle l
  have hl' := hle l'
  simp only [updateWhere, map_append, map_cons, countP_append, countP_cons, hp,
    if_true, hf r hp, hq] at hl hl' ⊢
  simp only [Bool.false_eq_true, if_false]
  omega

/-! ## Evolution -/

/-- Every row of `rows` has a later version in `rows'`. -/
def Evolves (R : ρ → ρ → Prop) (rows rows' : List ρ) : Prop := ∀ r ∈ rows, ∃ r' ∈ rows', R r r'

variable {R : ρ → ρ → Prop}

theorem Evolves.refl (h : ∀ r, R r r) (rows : List ρ) : Evolves R rows rows :=
  fun r hr => ⟨r, hr, h r⟩

theorem Evolves.trans (hR : ∀ {a b c}, R a b → R b c → R a c) {rows'' : List ρ}
    (h : Evolves R rows rows') (h' : Evolves R rows' rows'') : Evolves R rows rows'' := by
  intro r hr
  obtain ⟨r', hr', hrr'⟩ := h r hr
  obtain ⟨r'', hr'', hrr''⟩ := h' r' hr'
  exact ⟨r'', hr'', hR hrr' hrr''⟩

theorem Evolves.append (h : Evolves R rows rows') (more : List ρ) :
    Evolves R rows (rows' ++ more) := by
  intro r hr
  obtain ⟨r', hr', hrr'⟩ := h r hr
  exact ⟨r', mem_append_left _ hr', hrr'⟩

theorem evolves_updateWhere (hR : ∀ r, R r r) (h : ∀ r ∈ rows, p r = true → R r (f r)) :
    Evolves R rows (updateWhere p f rows) := by
  intro r hr
  refine ⟨_, mem_updateWhere.2 ⟨r, hr, rfl⟩, ?_⟩
  by_cases hp : p r
  · rw [if_pos hp]
    exact h r hr hp
  · rw [if_neg hp]
    exact hR r

end Gombit.Rows
