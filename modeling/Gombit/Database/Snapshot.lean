import Gombit.Foundations.Memory
import Mathlib.Data.List.Forall2
import Mathlib.Data.List.Perm.Subperm

/-!
# Snapshots of a row's values

`snapshotValue` and `valuesEqual` (`database/edit.go`) work on values in memory: the snapshot of a
column's value is a deep copy, and the value is compared with it after the edit, which may have changed
what the value refers to. Both recurse through the heap, here as often as a number says; that is enough
when the value is a tree of at most that depth.

* `deepCopy_spec`: a deep copy stands for the same tree, in fresh cells that refer to each other only.
* `valuesEqual_spec`: two values compare equal exactly when they stand for the same tree.
-/

namespace Gombit.Database.InMemory

open Memory List

variable {τ κ σ : Type}

/-! ## Deep copies -/

/-- Copies of values, one after the other. -/
def copyAll (copy : Heap τ κ σ → Val τ σ → Option (Val τ σ × Heap τ κ σ)) :
    Heap τ κ σ → List (Val τ σ) → Option (List (Val τ σ) × Heap τ κ σ)
  | h, [] => some ([], h)
  | h, v :: vs =>
    (copy h v).bind fun r => (copyAll copy r.2 vs).map fun rs => (r.1 :: rs.1, rs.2)

theorem map_fst_zip_sublist {α β : Type} (as : List α) (bs : List β) :
    ((as.zip bs).map Prod.fst).Sublist as := by
  induction as generalizing bs with
  | nil => exact .slnil
  | cons a as ih =>
    cases bs with
    | nil => exact nil_sublist _
    | cons b bs => exact (ih bs).cons_cons a

theorem nodup_zip {keys : List κ} (h : keys.Nodup) (vs : List (Val τ σ)) :
    ((keys.zip vs).map Prod.fst).Nodup :=
  h.sublist (map_fst_zip_sublist keys vs)

/-- `deepCopy`. Map keys are not copied. -/
def deepCopy : ℕ → Heap τ κ σ → Val τ σ → Option (Val τ σ × Heap τ κ σ)
  | 0, _, _ => none
  | n + 1, h, .pointer t a =>
    match h.cell a with
    | some (.target v) => (deepCopy n h v).map fun r =>
      let c := r.2.alloc (.target r.1)
      (.pointer t c.1, c.2)
    | _ => none
  | n + 1, h, .slice t a =>
    match h.cell a with
    | some (.elems vs) => (copyAll (deepCopy n) h vs).map fun r =>
      let c := r.2.alloc (.elems r.1)
      (.slice t c.1, c.2)
    | _ => none
  | n + 1, h, .map t a =>
    match h.cell a with
    | some (.entries es hes) => (copyAll (deepCopy n) h (es.map Prod.snd)).map fun r =>
      let c := r.2.alloc (.entries ((es.map Prod.fst).zip r.1) (nodup_zip hes r.1))
      (.map t c.1, c.2)
    | _ => none
  | n + 1, h, .struct t fields =>
    (copyAll (deepCopy n) h fields).map fun r => (.struct t r.1, r.2)
  | n + 1, h, .iface t v => (deepCopy n h v).map fun r => (.iface t r.1, r.2)
  | _ + 1, h, v => some (v, h)

variable {ts : List (ValTree τ κ σ)} {t : ValTree τ κ σ}

section Copies

variable [DecidableEq κ] {h : Heap τ κ σ} {n : ℕ}

/-- The value `v'` is a copy of a value that stands for the tree: in fresh cells, and it stands for the
same tree. -/
structure CopyOf (n : ℕ) (h : Heap τ κ σ) (t : ValTree τ κ σ) (v' : Val τ σ) (h' : Heap τ κ σ) :
    Prop where
  fresh : Fresh h h'
  knows : Knows (Within h.next h'.next) v'
  denotes : Denotes h' n v' t

theorem copyAll_spec {copy : Heap τ κ σ → Val τ σ → Option (Val τ σ × Heap τ κ σ)}
    (hcopy : ∀ {h v t}, Denotes h n v t → ∃ v' h', copy h v = some (v', h') ∧ CopyOf n h t v' h')
    {vs : List (Val τ σ)} (hts : List.Forall₂ (Denotes h n) vs ts) :
    ∃ vs' h', copyAll copy h vs = some (vs', h') ∧ Fresh h h' ∧
      (∀ w ∈ vs', Knows (Within h.next h'.next) w) ∧ List.Forall₂ (Denotes h' n) vs' ts := by
  induction vs generalizing h ts with
  | nil =>
    cases hts
    exact ⟨[], h, rfl, Fresh.refl h, nofun, .nil⟩
  | cons v vs ih =>
    cases hts with
    | @cons _ t _ ts hv hvs =>
      obtain ⟨v', h₁, hone, hcopied⟩ := hcopy hv
      have hvs₁ : List.Forall₂ (Denotes h₁ n) vs ts :=
        hvs.imp fun _ _ hd => hd.mono hcopied.fresh.toExtends
      obtain ⟨vs', h₂, hrest, hfresh, hknows, hden⟩ := ih hvs₁
      refine ⟨v' :: vs', h₂, ?_, hcopied.fresh.trans hfresh, ?_, ?_⟩
      · rw [copyAll, hone, Option.bind_some, hrest, Option.map_some]
      · intro w hw
        rcases mem_cons.1 hw with rfl | hw
        · exact hcopied.knows.mono fun x hx => hx.mono le_rfl hfresh.next_le
        · exact (hknows w hw).mono fun x hx => hx.mono hcopied.fresh.next_le le_rfl
      · exact .cons (hcopied.denotes.mono hfresh.toExtends) hden

/-- A reference to a new cell with the copies. -/
theorem copyOf_alloc {h' : Heap τ κ σ} (hfresh : Fresh h h') {c : Cell τ κ σ} {v : ℕ → Val τ σ}
    (hc : KnowsCell (Within h.next h'.next) c) (hknows : ∀ {K : ℕ → Prop} {a}, K a → Knows K (v a))
    (hden : Denotes (h'.alloc c).2 n (v (h'.alloc c).1) t) :
    CopyOf n h t (v (h'.alloc c).1) (h'.alloc c).2 where
  fresh := hfresh.alloc hc
  knows := hknows (within_alloc hfresh.toExtends c)
  denotes := hden

/-- **Deep copies.** Of a value that stands for a tree, `deepCopy` makes a copy. -/
theorem deepCopy_spec {v : Val τ σ} (hv : Denotes h n v t) :
    ∃ v' h', deepCopy n h v = some (v', h') ∧ CopyOf n h t v' h' := by
  induction n generalizing h v t with
  | zero => exact hv.elim
  | succ n ih =>
    obtain ⟨label, child⟩ := t
    have hwhole := hv
    obtain ⟨kids, hview, hkids⟩ := hv
    cases v with
    | scalar t s => exact ⟨_, h, rfl, Fresh.refl h, knows_scalar _ _ _, hwhole⟩
    | null t => exact ⟨_, h, rfl, Fresh.refl h, knows_null _ _, hwhole⟩
    | pointer t a =>
      obtain ⟨u, hc, heq⟩ := view_pointer_iff.1 hview
      obtain ⟨rfl, rfl⟩ := Prod.mk.inj heq
      obtain ⟨t₁, ht₁, rfl⟩ := exists_onlyTree hkids
      obtain ⟨v', h', hcopy, hfresh, hknows, hden⟩ := ih ht₁
      refine ⟨_, _, by rw [deepCopy, hc]; simp only [hcopy, Option.map_some]; rfl, ?_⟩
      refine copyOf_alloc (v := fun a => .pointer t a) hfresh ?_ knows_pointer_iff.2 ?_
      · exact fun w hw => mem_singleton.1 hw ▸ hknows
      · exact denotes_node (view_pointer_iff.2 ⟨v', cell_alloc _ _, rfl⟩)
          (rel_onlyTree (hden.mono (extends_alloc _ _)))
    | slice t a =>
      obtain ⟨vs, hc, heq⟩ := view_slice_iff.1 hview
      obtain ⟨rfl, rfl⟩ := Prod.mk.inj heq
      obtain ⟨ts, hts, rfl⟩ := exists_treesByIndex hkids
      obtain ⟨vs', h', hcopy, hfresh, hknows, hden⟩ := copyAll_spec ih hts
      refine ⟨_, _, by rw [deepCopy, hc]; simp only [hcopy, Option.map_some]; rfl, ?_⟩
      refine copyOf_alloc (v := fun a => .slice t a) hfresh hknows knows_slice_iff.2 ?_
      exact denotes_node (view_slice_iff.2 ⟨vs', cell_alloc _ _, rfl⟩)
        (rel_treesByIndex (hden.imp fun _ _ hd => hd.mono (extends_alloc _ _)))
    | map t a =>
      obtain ⟨es, hes, hc, heq⟩ := view_map_iff.1 hview
      obtain ⟨rfl, rfl⟩ := Prod.mk.inj heq
      obtain ⟨ts, hts, rfl⟩ := exists_treesByKey hes hkids
      obtain ⟨vs', h', hcopy, hfresh, hknows, hden⟩ := copyAll_spec ih hts
      -- as many copies as entries, so that every key has one
      have hlength : (es.map Prod.fst).length = vs'.length := by
        rw [hden.length_eq, ← hts.length_eq, length_map, length_map]
      have hfst : ((es.map Prod.fst).zip vs').map Prod.fst = es.map Prod.fst :=
        map_fst_zip hlength.le
      have hsnd : ((es.map Prod.fst).zip vs').map Prod.snd = vs' :=
        map_snd_zip hlength.ge
      refine ⟨_, _, by rw [deepCopy, hc]; simp only [hcopy, Option.map_some]; rfl, ?_⟩
      refine copyOf_alloc (v := fun a => .map t a) hfresh ?_ knows_map_iff.2 ?_
      · intro w hw
        rw [Cell.values, hsnd] at hw
        exact hknows w hw
      · refine denotes_node (view_map_iff.2 ⟨_, _, cell_alloc _ _, rfl⟩) fun p => ?_
        have hrel := rel_treesByKey ((es.map Prod.fst).zip vs') (hsnd.symm ▸ hden) p
        rw [hfst] at hrel
        exact optionRel_mono (fun _ _ hd => hd.mono (extends_alloc h' _)) hrel
    | iface t v =>
      obtain ⟨rfl, rfl⟩ := Prod.mk.inj (Option.some.inj hview)
      obtain ⟨t₁, ht₁, rfl⟩ := exists_onlyTree hkids
      obtain ⟨v', h', hcopy, hfresh, hknows, hden⟩ := ih ht₁
      refine ⟨.iface t v', h', by simp only [deepCopy, hcopy, Option.map_some], hfresh,
        knows_iface_iff.2 hknows, ?_⟩
      exact denotes_node rfl (rel_onlyTree hden)
    | struct t fields =>
      obtain ⟨rfl, rfl⟩ := Prod.mk.inj (Option.some.inj hview)
      obtain ⟨ts, hts, rfl⟩ := exists_treesByIndex hkids
      obtain ⟨vs', h', hcopy, hfresh, hknows, hden⟩ := copyAll_spec ih hts
      refine ⟨.struct t vs', h', by simp only [deepCopy, hcopy, Option.map_some], hfresh,
        knows_struct_iff.2 hknows, ?_⟩
      exact denotes_node rfl (rel_treesByIndex hden)

end Copies

/-! ## Comparisons of lists and maps -/

variable {us : List (ValTree τ κ σ)}

section Lists

/-- The values of two lists, pair by pair, until a pair differs. -/
def allEqual (eq : Val τ σ → Val τ σ → Option Bool) : List (Val τ σ) → List (Val τ σ) → Option Bool
  | [], [] => some true
  | v :: vs, w :: ws => (eq v w).bind fun b => if b then allEqual eq vs ws else some false
  | _, _ => some false

variable [DecidableEq κ]

/-- The entries of a map in another, until one is missing or differs. -/
def entriesEqual (eq : Val τ σ → Val τ σ → Option Bool) (others : List (κ × Val τ σ)) :
    List (κ × Val τ σ) → Option Bool
  | [] => some true
  | (k, v) :: es =>
    match others.lookup k with
    | none => some false
    | some w => (eq v w).bind fun b => if b then entriesEqual eq others es else some false

variable {h : Heap τ κ σ} {n m : ℕ} {eq : Val τ σ → Val τ σ → Option Bool}

/-- The comparison answers, for trees of at most that depth, and says whether they are equal. -/
def Compares (h : Heap τ κ σ) (n : ℕ) (eq : Val τ σ → Val τ σ → Option Bool) : Prop :=
  ∀ {v w : Val τ σ} {t u : ValTree τ κ σ} {m : ℕ}, Denotes h n v t → Denotes h m w u →
    ∃ b, eq v w = some b ∧ (b = true ↔ t = u)

theorem allEqual_spec (heq : Compares h n eq) {vs ws : List (Val τ σ)}
    (hts : List.Forall₂ (Denotes h n) vs ts) (hus : List.Forall₂ (Denotes h m) ws us) :
    ∃ b, allEqual eq vs ws = some b ∧ (b = true ↔ ts = us) := by
  induction hts generalizing ws us with
  | nil =>
    cases hus with
    | nil => exact ⟨true, rfl, by simp⟩
    | cons _ _ => exact ⟨false, rfl, by simp⟩
  | @cons v t vs ts hv hvs ih =>
    cases hus with
    | nil => exact ⟨false, rfl, by simp⟩
    | @cons w u ws us hw hws =>
      obtain ⟨b, hb, hiff⟩ := heq hv hw
      rw [allEqual, hb, Option.bind_some]
      cases b with
      | false =>
        refine ⟨false, rfl, ?_⟩
        have hne : t ≠ u := fun htu => Bool.false_ne_true (hiff.2 htu)
        simp [hne]
      | true =>
        obtain ⟨b', hb', hiff'⟩ := ih hws
        refine ⟨b', by simpa using hb', ?_⟩
        rw [hiff', hiff.1 rfl]
        simp

theorem entriesEqual_spec (heq : Compares h n eq) (keys keys' : List κ) {vs ws : List (Val τ σ)}
    (hts : List.Forall₂ (Denotes h n) vs ts) (hus : List.Forall₂ (Denotes h m) ws us) :
    ∃ b, entriesEqual eq (keys'.zip ws) (keys.zip vs) = some b ∧
      (b = true ↔ ∀ e ∈ keys.zip ts, (keys'.zip us).lookup e.1 = some e.2) := by
  induction hts generalizing keys with
  | nil => exact ⟨true, by simp [entriesEqual], by simp⟩
  | @cons v t vs ts hv hvs ih =>
    cases keys with
    | nil => exact ⟨true, by simp [entriesEqual], by simp⟩
    | cons k keys =>
      have hrel := rel_lookup_zip hus keys' k
      rw [zip_cons_cons, zip_cons_cons, entriesEqual]
      cases hw : (keys'.zip ws).lookup k with
      | none =>
        refine ⟨false, rfl, ?_⟩
        rw [hw] at hrel
        simp [eq_none_of_rel hrel rfl]
      | some w =>
        obtain ⟨u, hu, hden⟩ := exists_of_rel hrel hw
        obtain ⟨b, hb, hiff⟩ := heq hv hden
        rw [forall_mem_cons, hu, Option.some.injEq]
        simp only [hb, Option.bind_some]
        cases b with
        | false =>
          refine ⟨false, rfl, ?_⟩
          have hne : u ≠ t := fun hut => Bool.false_ne_true (hiff.2 hut.symm)
          simp [hne]
        | true =>
          obtain ⟨b', hb', hiff'⟩ := ih keys
          refine ⟨b', by simpa using hb', ?_⟩
          rw [hiff', hiff.1 rfl]
          simp

end Lists

/-! ## Comparisons of values -/

section Values

variable [DecidableEq τ] [DecidableEq κ] [DecidableEq σ]

/-- One level of a comparison of two values: `onRef` compares the targets of pointers, what interfaces
hold and the fields of structs, `onElem` the elements of slices and maps. -/
def equalStep (samePointer : Bool) (onRef onElem : Val τ σ → Val τ σ → Option Bool)
    (h : Heap τ κ σ) (v w : Val τ σ) : Option Bool :=
  if v.type ≠ w.type then some false
  else
    match v, w with
    | .scalar _ s, .scalar _ s' => some (decide (s = s'))
    | .null _, .null _ => some true
    | .pointer _ a, .pointer _ b =>
      if samePointer = true ∧ a = b then some true
      else
        match h.cell a, h.cell b with
        | some (.target v), some (.target w) => onRef v w
        | _, _ => none
    | .slice _ a, .slice _ b =>
      match h.cell a, h.cell b with
      | some (.elems vs), some (.elems ws) =>
        if vs.length ≠ ws.length then some false
        else if a = b then some true else allEqual onElem vs ws
      | _, _ => none
    | .map _ a, .map _ b =>
      match h.cell a, h.cell b with
      | some (.entries es _), some (.entries es' _) =>
        if es.length ≠ es'.length then some false
        else if a = b then some true else entriesEqual onElem es' es
      | _, _ => none
    | .iface _ v, .iface _ w => onRef v w
    | .struct _ fields, .struct _ fields' => allEqual onRef fields fields'
    | _, _ => some false

/-- `reflect.DeepEqual`. -/
def deepEqual (h : Heap τ κ σ) : ℕ → Val τ σ → Val τ σ → Option Bool
  | 0, _, _ => none
  | n + 1, v, w => equalStep true (deepEqual h n) (deepEqual h n) h v w

/-- `valuesEqual`, of values without floats, whose structs have exported fields only and no `Equal`
method. -/
def valuesEqual (h : Heap τ κ σ) : ℕ → Val τ σ → Val τ σ → Option Bool
  | 0, _, _ => none
  | n + 1, v, w => equalStep false (valuesEqual h n) (deepEqual h n) h v w

variable {h : Heap τ κ σ} {n : ℕ} {samePointer : Bool}
  {onRef onElem : Val τ σ → Val τ σ → Option Bool}

theorem equalStep_of_label_ne {v w : Val τ σ} (hne : v.label ≠ w.label) :
    equalStep samePointer onRef onElem h v w = some false := by
  unfold equalStep
  split
  · rfl
  · rename_i htype
    have htype : v.type = w.type := not_not.1 htype
    cases v <;> cases w <;> simp_all [Val.label, Val.type]

omit [DecidableEq τ] [DecidableEq κ] [DecidableEq σ] in
/-- Trees with the same label are equal when their children are. -/
theorem node_eq_iff {label : Label τ σ} {child child' : Pos κ → Option (ValTree τ κ σ)} :
    ValTree.node label child = ValTree.node label child' ↔ child = child' := by
  rw [ValTree.node.injEq]
  exact ⟨fun h => h.2, fun h => ⟨rfl, h⟩⟩

omit [DecidableEq τ] [DecidableEq κ] [DecidableEq σ] in
theorem onlyTree_eq_iff {u : ValTree τ κ σ} :
    (onlyTree t : Pos κ → Option (ValTree τ κ σ)) = onlyTree u ↔ t = u :=
  ⟨fun h => Option.some.inj (congrFun h .inner), fun h => h ▸ rfl⟩

omit [DecidableEq τ] [DecidableEq κ] [DecidableEq σ] in
theorem treesByIndex_eq_iff :
    (treesByIndex ts : Pos κ → Option (ValTree τ κ σ)) = treesByIndex us ↔ ts = us :=
  ⟨treesByIndex_inj, fun h => h ▸ rfl⟩

/-- One level of a comparison, when the levels below say whether trees are equal. -/
theorem equalStep_spec (hRef : Compares h n onRef) (hElem : Compares h n onElem) :
    Compares h (n + 1) (equalStep samePointer onRef onElem h) := by
  intro v w t u m hv hw
  have hsame : v = w → t = u := fun hvw => (hvw ▸ hv).unique hw
  cases m with
  | zero => exact hw.elim
  | succ m =>
  obtain ⟨label, child⟩ := t
  obtain ⟨label', child'⟩ := u
  obtain ⟨kids, hview, hkids⟩ := hv
  obtain ⟨kids', hview', hkids'⟩ := hw
  have hlabel : label = v.label := label_of_view hview
  have hlabel' : label' = w.label := label_of_view hview'
  by_cases hl : v.label = w.label
  swap
  · refine ⟨false, equalStep_of_label_ne hl, ?_⟩
    rw [ValTree.node.injEq, hlabel, hlabel']
    simp [hl]
  obtain rfl : label = label' := by rw [hlabel, hlabel', hl]
  rw [node_eq_iff] at hsame ⊢
  cases v with
  | scalar t s =>
    cases w with
    | scalar t' s' =>
      obtain ⟨rfl, rfl⟩ := Label.scalar.inj hl
      exact ⟨true, by simp [equalStep], iff_of_true rfl (hsame rfl)⟩
    | _ => cases hl
  | null t =>
    cases w with
    | null t' =>
      obtain rfl := Label.null.inj hl
      exact ⟨true, by simp [equalStep], iff_of_true rfl (hsame rfl)⟩
    | _ => cases hl
  | pointer t a =>
    cases w with
    | pointer t' b =>
      obtain rfl := Label.pointer.inj hl
      by_cases hab : samePointer = true ∧ a = b
      · obtain ⟨rfl, rfl⟩ := hab
        exact ⟨true, by simp [equalStep], iff_of_true rfl (hsame rfl)⟩
      · obtain ⟨x, hx, heq⟩ := view_pointer_iff.1 hview
        obtain ⟨y, hy, heq'⟩ := view_pointer_iff.1 hview'
        obtain ⟨-, rfl⟩ := Prod.mk.inj heq
        obtain ⟨-, rfl⟩ := Prod.mk.inj heq'
        obtain ⟨t₁, ht₁, rfl⟩ := exists_onlyTree hkids
        obtain ⟨u₁, hu₁, rfl⟩ := exists_onlyTree hkids'
        obtain ⟨b', hb', hiff⟩ := hRef ht₁ hu₁
        refine ⟨b', ?_, hiff.trans onlyTree_eq_iff.symm⟩
        simp only [equalStep, Val.type, ne_eq, not_true_eq_false, if_false, if_neg hab, hx, hy, hb']
    | _ => cases hl
  | slice t a =>
    cases w with
    | slice t' b =>
      obtain rfl := Label.slice.inj hl
      obtain ⟨vs, hx, heq⟩ := view_slice_iff.1 hview
      obtain ⟨ws, hy, heq'⟩ := view_slice_iff.1 hview'
      obtain ⟨-, rfl⟩ := Prod.mk.inj heq
      obtain ⟨-, rfl⟩ := Prod.mk.inj heq'
      obtain ⟨ts, hts, rfl⟩ := exists_treesByIndex hkids
      obtain ⟨us, hus, rfl⟩ := exists_treesByIndex hkids'
      have hstep : equalStep samePointer onRef onElem h (.slice t a) (.slice t b) =
          if vs.length ≠ ws.length then some false
          else if a = b then some true else allEqual onElem vs ws := by
        simp [equalStep, Val.type, hx, hy]
      rw [hstep]
      split
      · rename_i hlength
        refine ⟨false, rfl, iff_of_false Bool.false_ne_true fun htrees => hlength ?_⟩
        rw [hts.length_eq, hus.length_eq, treesByIndex_inj htrees]
      · split
        · rename_i hab
          exact ⟨true, rfl, iff_of_true rfl (hsame (by rw [hab]))⟩
        · obtain ⟨b', hb', hiff⟩ := allEqual_spec hElem hts hus
          exact ⟨b', hb', hiff.trans treesByIndex_eq_iff.symm⟩
    | _ => cases hl
  | map t a =>
    cases w with
    | map t' b =>
      obtain rfl := Label.map.inj hl
      obtain ⟨es, hes, hx, heq⟩ := view_map_iff.1 hview
      obtain ⟨es', hes', hy, heq'⟩ := view_map_iff.1 hview'
      obtain ⟨-, rfl⟩ := Prod.mk.inj heq
      obtain ⟨-, rfl⟩ := Prod.mk.inj heq'
      obtain ⟨ts, hts, rfl⟩ := exists_treesByKey hes hkids
      obtain ⟨us, hus, rfl⟩ := exists_treesByKey hes' hkids'
      have hstep : equalStep samePointer onRef onElem h (.map t a) (.map t b) =
          if es.length ≠ es'.length then some false
          else if a = b then some true else entriesEqual onElem es' es := by
        simp [equalStep, Val.type, hx, hy]
      have hlen : (es.map Prod.fst).length = ts.length := by
        rw [← hts.length_eq, length_map, length_map]
      have hlen' : (es'.map Prod.fst).length = us.length := by
        rw [← hus.length_eq, length_map, length_map]
      have hiff := treesByKey_eq_iff hes hes' hlen hlen'
      rw [length_map, length_map] at hiff
      rw [hstep]
      split
      · rename_i hlength
        exact ⟨false, rfl, iff_of_false Bool.false_ne_true fun htrees => hlength (hiff.1 htrees).1⟩
      · rename_i hlength
        split
        · rename_i hab
          exact ⟨true, rfl, iff_of_true rfl (hsame (by rw [hab]))⟩
        · obtain ⟨b', hb', hiff'⟩ :=
            entriesEqual_spec hElem (es.map Prod.fst) (es'.map Prod.fst) hts hus
          rw [← zip_of_prod rfl rfl, ← zip_of_prod rfl rfl] at hb'
          refine ⟨b', hb', hiff'.trans ?_⟩
          rw [hiff]
          exact ⟨fun h => ⟨not_not.1 hlength, h⟩, fun h => h.2⟩
    | _ => cases hl
  | iface t x =>
    cases w with
    | iface t' y =>
      obtain rfl := Label.iface.inj hl
      obtain ⟨-, rfl⟩ := Prod.mk.inj (Option.some.inj hview)
      obtain ⟨-, rfl⟩ := Prod.mk.inj (Option.some.inj hview')
      obtain ⟨t₁, ht₁, rfl⟩ := exists_onlyTree hkids
      obtain ⟨u₁, hu₁, rfl⟩ := exists_onlyTree hkids'
      obtain ⟨b', hb', hiff⟩ := hRef ht₁ hu₁
      exact ⟨b', by simpa [equalStep, Val.type] using hb', hiff.trans onlyTree_eq_iff.symm⟩
    | _ => cases hl
  | struct t fields =>
    cases w with
    | struct t' fields' =>
      obtain rfl := Label.struct.inj hl
      obtain ⟨-, rfl⟩ := Prod.mk.inj (Option.some.inj hview)
      obtain ⟨-, rfl⟩ := Prod.mk.inj (Option.some.inj hview')
      obtain ⟨ts, hts, rfl⟩ := exists_treesByIndex hkids
      obtain ⟨us, hus, rfl⟩ := exists_treesByIndex hkids'
      obtain ⟨b', hb', hiff⟩ := allEqual_spec hRef hts hus
      exact ⟨b', by simpa [equalStep, Val.type] using hb', hiff.trans treesByIndex_eq_iff.symm⟩
    | _ => cases hl

theorem deepEqual_spec (h : Heap τ κ σ) (n : ℕ) : Compares h n (deepEqual h n) := by
  induction n with
  | zero => exact fun hv _ => hv.elim
  | succ n ih => exact equalStep_spec ih ih

/-- **Comparisons.** Two values that stand for trees compare equal exactly when the trees are. -/
theorem valuesEqual_spec (h : Heap τ κ σ) (n : ℕ) : Compares h n (valuesEqual h n) := by
  induction n with
  | zero => exact fun hv _ => hv.elim
  | succ n ih => exact equalStep_spec ih (deepEqual_spec h n)

end Values

end Gombit.Database.InMemory
