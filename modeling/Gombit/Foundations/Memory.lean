import Mathlib.Data.List.Forall2
import Mathlib.Data.List.Nodup
import Mathlib.Data.List.Perm.Subperm
import Mathlib.Data.Option.Basic
import Mathlib.Order.Basic
import Mathlib.Order.Lattice
import Mathlib.Data.Nat.Basic

/-!
# Values in memory

A value of a program is a scalar, a nil, a reference to a cell of the heap (a pointer, a slice or a
map), an interface that holds a value, or a struct of values. What it stands for, as a value, is the
tree that is read off by following the references: `Denotes`.

* `Denotes.mono`: a heap that has grown still holds the tree.
* `Denotes.frame`: so does a heap that changed elsewhere. `Knows K v` says that `v` refers to addresses
  in `K` only, and `Closed K` that the cells at those addresses do.
* `Fresh`: a heap that grew by cells that refer to each other only.
-/

namespace Gombit.Memory

open List

/-- A value, with its type: a scalar, the nil of a type, a reference to an address of the heap, an
interface or a struct. -/
inductive Val (τ σ : Type)
  | scalar (t : τ) (s : σ)
  | null (t : τ)
  | pointer (t : τ) (a : ℕ)
  | slice (t : τ) (a : ℕ)
  | map (t : τ) (a : ℕ)
  | iface (t : τ) (dynamic : Val τ σ)
  | struct (t : τ) (fields : List (Val τ σ))

/-- What a reference refers to: the target of a pointer, the elements of a slice, or the entries of a
map, each key once. -/
inductive Cell (τ κ σ : Type)
  | target (v : Val τ σ)
  | elems (vs : List (Val τ σ))
  | entries (es : List (κ × Val τ σ)) (nodup : (es.map Prod.fst).Nodup)

/-- The cells of the heap, those below `next` being in use. -/
structure Heap (τ κ σ : Type) where
  cell : ℕ → Option (Cell τ κ σ)
  next : ℕ
  unused : ∀ a, next ≤ a → cell a = none

/-- The outermost constructor of a value as a tree. -/
inductive Label (τ σ : Type)
  | scalar (t : τ) (s : σ)
  | null (t : τ)
  | pointer (t : τ)
  | slice (t : τ)
  | map (t : τ)
  | iface (t : τ)
  | struct (t : τ)

/-- The place of a subtree. -/
inductive Pos (κ : Type)
  | inner
  | index (i : ℕ)
  | key (k : κ)

/-- A value as a tree. -/
inductive ValTree (τ κ σ : Type)
  | node (label : Label τ σ) (child : Pos κ → Option (ValTree τ κ σ))

variable {τ κ σ : Type}

namespace Val

/-- The type of a value. -/
def type : Val τ σ → τ
  | .scalar t _ => t
  | .null t => t
  | .pointer t _ => t
  | .slice t _ => t
  | .map t _ => t
  | .iface t _ => t
  | .struct t _ => t

/-- The outermost constructor. -/
def label : Val τ σ → Label τ σ
  | .scalar t s => .scalar t s
  | .null t => .null t
  | .pointer t _ => .pointer t
  | .slice t _ => .slice t
  | .map t _ => .map t
  | .iface t _ => .iface t
  | .struct t _ => .struct t

end Val

/-- The type of a value with that constructor. -/
def Label.type : Label τ σ → τ
  | .scalar t _ => t
  | .null t => t
  | .pointer t => t
  | .slice t => t
  | .map t => t
  | .iface t => t
  | .struct t => t

/-- The type of a value that is that tree. -/
def ValTree.type : ValTree τ κ σ → τ
  | .node label _ => label.type

/-- The values in a cell. -/
def Cell.values : Cell τ κ σ → List (Val τ σ)
  | .target v => [v]
  | .elems vs => vs
  | .entries es _ => es.map Prod.snd

/-- A new cell, and its address. -/
def Heap.alloc (h : Heap τ κ σ) (c : Cell τ κ σ) : ℕ × Heap τ κ σ :=
  (h.next,
    { cell := fun a => if a = h.next then some c else h.cell a
      next := h.next + 1
      unused := fun a ha => by
        rw [if_neg (by omega)]
        exact h.unused a (by omega) })

/-- A cell is overwritten. -/
def Heap.store (h : Heap τ κ σ) (a : ℕ) (ha : a < h.next) (c : Cell τ κ σ) : Heap τ κ σ where
  cell b := if b = a then some c else h.cell b
  next := h.next
  unused b hb := by
    rw [if_neg (by omega)]
    exact h.unused b hb

/-! ## The tree of a value -/

variable {v : Val τ σ} {n : ℕ} {child : Pos κ → Option (ValTree τ κ σ)}

section Trees

variable [DecidableEq κ]

/-- The child at a place of a value that has only one. -/
def onlyInner (v : Val τ σ) : Pos κ → Option (Val τ σ)
  | .inner => some v
  | _ => none

/-- The children of a slice or a struct. -/
def byIndex (vs : List (Val τ σ)) : Pos κ → Option (Val τ σ)
  | .index i => vs[i]?
  | _ => none

/-- The children of a map. -/
def byKey (es : List (κ × Val τ σ)) : Pos κ → Option (Val τ σ)
  | .key k => es.lookup k
  | _ => none

/-- The outermost constructor of a value, and its children; none for a reference to no cell. -/
def Heap.view (h : Heap τ κ σ) : Val τ σ → Option (Label τ σ × (Pos κ → Option (Val τ σ)))
  | .scalar t s => some (.scalar t s, fun _ => none)
  | .null t => some (.null t, fun _ => none)
  | .pointer t a =>
    match h.cell a with
    | some (.target v) => some (.pointer t, onlyInner v)
    | _ => none
  | .slice t a =>
    match h.cell a with
    | some (.elems vs) => some (.slice t, byIndex vs)
    | _ => none
  | .map t a =>
    match h.cell a with
    | some (.entries es _) => some (.map t, byKey es)
    | _ => none
  | .iface t v => some (.iface t, onlyInner v)
  | .struct t fields => some (.struct t, byIndex fields)

section Views

variable {h : Heap τ κ σ} {t : τ} {a : ℕ} {x : Label τ σ × (Pos κ → Option (Val τ σ))}

theorem view_pointer_iff : h.view (.pointer t a) = some x ↔
    ∃ v, h.cell a = some (.target v) ∧ (.pointer t, onlyInner v) = x := by
  cases hc : h.cell a with
  | none => simp [Heap.view, hc]
  | some c => cases c <;> simp [Heap.view, hc]

theorem view_slice_iff : h.view (.slice t a) = some x ↔
    ∃ vs, h.cell a = some (.elems vs) ∧ (.slice t, byIndex vs) = x := by
  cases hc : h.cell a with
  | none => simp [Heap.view, hc]
  | some c => cases c <;> simp [Heap.view, hc]

theorem view_map_iff : h.view (.map t a) = some x ↔
    ∃ es hes, h.cell a = some (.entries es hes) ∧ (.map t, byKey es) = x := by
  cases hc : h.cell a with
  | none => simp [Heap.view, hc]
  | some c =>
    cases c with
    | entries es hes => simpa [Heap.view, hc] using fun _ => hes
    | target | elems => simp [Heap.view, hc]

theorem label_of_view (hv : h.view v = some x) : x.1 = v.label := by
  cases v with
  | pointer t a => obtain ⟨u, -, rfl⟩ := view_pointer_iff.1 hv; rfl
  | slice t a => obtain ⟨vs, -, rfl⟩ := view_slice_iff.1 hv; rfl
  | map t a => obtain ⟨es, -, -, rfl⟩ := view_map_iff.1 hv; rfl
  | scalar | null | iface | struct => obtain rfl := Option.some.inj hv; rfl

end Views

/-- The value `v` stands for the tree, of depth at most `n`. -/
def Denotes (h : Heap τ κ σ) : ℕ → Val τ σ → ValTree τ κ σ → Prop
  | 0, _, _ => False
  | n + 1, v, .node label child =>
    ∃ kids, h.view v = some (label, kids) ∧
      ∀ p, Option.Rel (Denotes h n) (kids p) (child p)

theorem optionRel_mono {α β : Type} {R S : α → β → Prop} (h : ∀ a b, R a b → S a b) {x : Option α}
    {y : Option β} (hxy : Option.Rel R x y) : Option.Rel S x y := by
  cases hxy with
  | some hab => exact .some (h _ _ hab)
  | none => exact .none

theorem denotes_node {h : Heap τ κ σ} {label : Label τ σ} {kids : Pos κ → Option (Val τ σ)}
    (hview : h.view v = some (label, kids))
    (hkids : ∀ p, Option.Rel (Denotes h n) (kids p) (child p)) :
    Denotes h (n + 1) v (.node label child) :=
  ⟨kids, hview, hkids⟩

/-- A value stands for one tree. -/
theorem Denotes.unique {h : Heap τ κ σ} {m : ℕ} {t u : ValTree τ κ σ} (ht : Denotes h n v t)
    (hu : Denotes h m v u) : t = u := by
  induction n generalizing m v t u with
  | zero => exact ht.elim
  | succ n ih =>
    cases m with
    | zero => exact hu.elim
    | succ m =>
      obtain ⟨label, child⟩ := t
      obtain ⟨label', child'⟩ := u
      obtain ⟨kids, hview, hkids⟩ := ht
      obtain ⟨kids', hview', hkids'⟩ := hu
      obtain ⟨rfl, rfl⟩ := Prod.mk.inj (Option.some.inj (hview.symm.trans hview'))
      have hchild : child = child' := by
        funext p
        have hp := hkids p
        have hp' := hkids' p
        generalize kids p = k at hp hp'
        generalize child p = c at hp
        generalize child' p = c' at hp'
        cases hp with
        | some hv =>
          cases hp' with
          | some hv' => rw [ih hv hv']
        | none =>
          cases hp' with
          | none => rfl
      rw [hchild]

end Trees

/-! ## Children -/

variable {ts : List (ValTree τ κ σ)} {vs : List (Val τ σ)}

section Children

/-- Subtrees by index. -/
def treesByIndex (ts : List (ValTree τ κ σ)) : Pos κ → Option (ValTree τ κ σ)
  | .index i => ts[i]?
  | _ => none

/-- Subtrees by key. -/
def treesByKey [DecidableEq κ] (keys : List κ) (ts : List (ValTree τ κ σ)) : Pos κ → Option (ValTree τ κ σ)
  | .key k => (keys.zip ts).lookup k
  | _ => none

/-- A single subtree. -/
def onlyTree (t : ValTree τ κ σ) : Pos κ → Option (ValTree τ κ σ)
  | .inner => some t
  | _ => none

theorem exists_forall₂ {α β : Type} {R : α → β → Prop} {l : List α} (h : ∀ a ∈ l, ∃ b, R a b) :
    ∃ l', List.Forall₂ R l l' := by
  induction l with
  | nil => exact ⟨[], .nil⟩
  | cons a l ih =>
    obtain ⟨b, hb⟩ := h a mem_cons_self
    obtain ⟨l', hl'⟩ := ih fun x hx => h x (mem_cons_of_mem _ hx)
    exact ⟨b :: l', .cons hb hl'⟩

theorem optionRel_getElem? {α β : Type} {R : α → β → Prop} {l : List α} {l' : List β}
    (h : List.Forall₂ R l l') (i : ℕ) : Option.Rel R l[i]? l'[i]? := by
  induction h generalizing i with
  | nil => exact .none
  | cons hab _ ih =>
    cases i with
    | zero => exact .some hab
    | succ i => exact ih i

theorem eq_none_of_rel {α β : Type} {R : α → β → Prop} {x : Option α} {y : Option β}
    (h : Option.Rel R x y) (hx : x = none) : y = none := by
  subst hx
  cases h
  rfl

theorem exists_of_rel {α β : Type} {R : α → β → Prop} {x : Option α} {y : Option β} {a : α}
    (h : Option.Rel R x y) (hx : x = some a) : ∃ b, y = some b ∧ R a b := by
  subst hx
  cases h with
  | some hab => exact ⟨_, rfl, hab⟩

variable {us : List (ValTree τ κ σ)}

theorem treesByIndex_inj
    (h : (treesByIndex ts : Pos κ → Option (ValTree τ κ σ)) = treesByIndex us) : ts = us :=
  ext_getElem? fun i => congrFun h (.index i)

variable [DecidableEq κ] {h : Heap τ κ σ} {n : ℕ}

/-- The subtree of a pointer or an interface. -/
theorem exists_onlyTree (hkids : ∀ p, Option.Rel (Denotes h n) (onlyInner v p) (child p)) :
    ∃ t, Denotes h n v t ∧ child = onlyTree t := by
  obtain ⟨t, ht, hden⟩ := exists_of_rel (hkids .inner) rfl
  refine ⟨t, hden, ?_⟩
  funext p
  cases p with
  | inner => exact ht
  | index i => exact eq_none_of_rel (hkids (.index i)) rfl
  | key k => exact eq_none_of_rel (hkids (.key k)) rfl

theorem rel_onlyTree {t : ValTree τ κ σ} (ht : Denotes h n v t) (p : Pos κ) :
    Option.Rel (Denotes h n) (onlyInner v p) (onlyTree t p) := by
  cases p with
  | inner => exact .some ht
  | index | key => exact .none

/-- The subtrees of a slice or a struct. -/
theorem exists_treesByIndex (hkids : ∀ p, Option.Rel (Denotes h n) (byIndex vs p) (child p)) :
    ∃ ts, List.Forall₂ (Denotes h n) vs ts ∧ child = treesByIndex ts := by
  obtain ⟨ts, hts⟩ : ∃ ts, List.Forall₂ (fun iv t => child (.index iv.2) = some t ∧
      Denotes h n iv.1 t) vs.zipIdx ts := by
    refine exists_forall₂ fun iv hiv => ?_
    obtain ⟨t, ht, hden⟩ := exists_of_rel (hkids (.index iv.2)) (mem_zipIdx_iff_getElem?.1 hiv)
    exact ⟨t, ht, hden⟩
  have hvs : List.Forall₂ (Denotes h n) vs ts := by
    have := forall₂_map_left_iff.2 (hts.imp fun iv t h => h.2)
    rwa [zipIdx_map_fst] at this
  refine ⟨ts, hvs, ?_⟩
  funext p
  cases p with
  | inner => exact eq_none_of_rel (hkids .inner) rfl
  | key k => exact eq_none_of_rel (hkids (.key k)) rfl
  | index i =>
    have hi := optionRel_getElem? hts i
    cases hv : vs[i]? with
    | none =>
      have hnone : vs.zipIdx[i]? = none := by simpa using hv
      rw [eq_none_of_rel (hkids (.index i)) hv]
      exact (eq_none_of_rel hi hnone).symm
    | some v =>
      have hsome : vs.zipIdx[i]? = some (v, i) := by simpa using hv
      obtain ⟨t, ht, hchild, -⟩ := exists_of_rel hi hsome
      rw [hchild]
      exact ht.symm

theorem rel_treesByIndex (hts : List.Forall₂ (Denotes h n) vs ts) (p : Pos κ) :
    Option.Rel (Denotes h n) (byIndex vs p) (treesByIndex ts p) := by
  cases p with
  | index i => exact optionRel_getElem? hts i
  | inner | key => exact .none

theorem rel_lookup_zip {α β : Type} {R : α → β → Prop} {l : List α} {l' : List β}
    (hl : List.Forall₂ R l l') (keys : List κ) (k : κ) :
    Option.Rel R ((keys.zip l).lookup k) ((keys.zip l').lookup k) := by
  induction hl generalizing keys with
  | nil => simp
  | @cons a b l l' hab hl ih =>
    cases keys with
    | nil => simp
    | cons key keys =>
      rw [zip_cons_cons, zip_cons_cons, lookup_cons, lookup_cons]
      cases k == key with
      | true => exact .some hab
      | false => exact ih keys

theorem rel_treesByKey (es : List (κ × Val τ σ))
    (hts : List.Forall₂ (Denotes h n) (es.map Prod.snd) ts) (p : Pos κ) :
    Option.Rel (Denotes h n) (byKey es p) (treesByKey (es.map Prod.fst) ts p) := by
  cases p with
  | key k =>
    have hes : es = (es.map Prod.fst).zip (es.map Prod.snd) := zip_of_prod rfl rfl
    have := rel_lookup_zip hts (es.map Prod.fst) k
    rwa [← hes] at this
  | inner | index => exact .none

theorem lookup_of_mem {β : Type} {es : List (κ × β)} (hes : (es.map Prod.fst).Nodup) {e : κ × β}
    (he : e ∈ es) : es.lookup e.1 = some e.2 := by
  induction es with
  | nil => cases he
  | cons e' es ih =>
    rw [map_cons, nodup_cons] at hes
    rw [lookup_cons]
    rcases mem_cons.1 he with rfl | he
    · rw [beq_self_eq_true]
    · have hne : e.1 ≠ e'.1 := by
        intro heq
        exact hes.1 (heq ▸ mem_map_of_mem he)
      rw [beq_eq_false_iff_ne.2 hne]
      exact ih hes.2 he

theorem mem_of_lookup {β : Type} {es : List (κ × β)} {k : κ} {b : β} (h : es.lookup k = some b) :
    (k, b) ∈ es := by
  obtain ⟨es₁, es₂, rfl, -⟩ := lookup_eq_some_iff.1 h
  exact mem_append_right _ mem_cons_self

theorem lookup_zip_eq {α β : Type} {f : κ → Option β} {es : List (κ × α)} {ts : List β}
    (hts : List.Forall₂ (fun e t => f e.1 = some t) es ts) (k : κ) :
    ((es.map Prod.fst).zip ts).lookup k = if k ∈ es.map Prod.fst then f k else none := by
  induction hts with
  | nil => rfl
  | @cons e t es ts ht _ ih =>
    rw [map_cons, zip_cons_cons, lookup_cons]
    by_cases hk : k = e.1
    · rw [hk, beq_self_eq_true, if_pos mem_cons_self, ht]
    · rw [beq_eq_false_iff_ne.2 hk]
      simp only [mem_cons, hk, false_or]
      exact ih

theorem lookup_eq_none {β : Type} {es : List (κ × β)} {k : κ} (h : k ∉ es.map Prod.fst) :
    es.lookup k = none :=
  lookup_eq_none_iff.2 fun _ he => bne_iff_ne.2 fun hk => h (hk ▸ mem_map_of_mem he)

/-- The subtrees of a map. -/
theorem exists_treesByKey {es : List (κ × Val τ σ)} (hes : (es.map Prod.fst).Nodup)
    (hkids : ∀ p, Option.Rel (Denotes h n) (byKey es p) (child p)) :
    ∃ ts, List.Forall₂ (Denotes h n) (es.map Prod.snd) ts ∧
      child = treesByKey (es.map Prod.fst) ts := by
  obtain ⟨ts, hts⟩ : ∃ ts, List.Forall₂ (fun e t => child (.key e.1) = some t ∧
      Denotes h n e.2 t) es ts := by
    refine exists_forall₂ fun e he => ?_
    obtain ⟨t, ht, hden⟩ := exists_of_rel (hkids (.key e.1)) (lookup_of_mem hes he)
    exact ⟨t, ht, hden⟩
  refine ⟨ts, forall₂_map_left_iff.2 (hts.imp fun e t h => h.2), ?_⟩
  funext p
  cases p with
  | inner => exact eq_none_of_rel (hkids .inner) rfl
  | index i => exact eq_none_of_rel (hkids (.index i)) rfl
  | key k =>
    have hzip := lookup_zip_eq (f := fun k => child (.key k)) (hts.imp fun e t h => h.1) k
    refine Eq.trans ?_ hzip.symm
    split
    · rfl
    · rename_i hk
      exact eq_none_of_rel (hkids (.key k)) (lookup_eq_none hk)

/-- Two maps are equal as values when they have as many entries and each entry of the one is in the
other. -/
theorem treesByKey_eq_iff {keys keys' : List κ} (hkeys : keys.Nodup) (hkeys' : keys'.Nodup)
    (hts : keys.length = ts.length) (hus : keys'.length = us.length) :
    (treesByKey keys ts : Pos κ → Option (ValTree τ κ σ)) = treesByKey keys' us ↔
      keys.length = keys'.length ∧ ∀ e ∈ keys.zip ts, (keys'.zip us).lookup e.1 = some e.2 := by
  have hfst : (keys.zip ts).map Prod.fst = keys := map_fst_zip hts.le
  have hfst' : (keys'.zip us).map Prod.fst = keys' := map_fst_zip hus.le
  have hsome : ∀ {k t}, (keys'.zip us).lookup k = some t → k ∈ keys' := fun {k t} h => by
    rw [← hfst']
    exact mem_map_of_mem (f := Prod.fst) (mem_of_lookup h)
  have hmem : ∀ {k}, k ∈ keys → ∃ t, (k, t) ∈ keys.zip ts := fun {k} h => by
    rw [← hfst] at h
    obtain ⟨e, he, rfl⟩ := mem_map.1 h
    exact ⟨e.2, he⟩
  constructor
  · intro heq
    have hlookup : ∀ k, (keys.zip ts).lookup k = (keys'.zip us).lookup k :=
      fun k => congrFun heq (.key k)
    have hentries : ∀ e ∈ keys.zip ts, (keys'.zip us).lookup e.1 = some e.2 := fun e he => by
      rw [← hlookup]
      exact lookup_of_mem (hfst.symm ▸ hkeys) he
    have hperm : keys.Perm keys' := by
      refine (perm_ext_iff_of_nodup hkeys hkeys').2 fun k => ⟨fun hk => ?_, fun hk => ?_⟩
      · obtain ⟨t, ht⟩ := hmem hk
        exact hsome (hentries _ ht)
      · by_contra hk'
        rw [← hfst'] at hk
        obtain ⟨e, he, rfl⟩ := mem_map.1 hk
        have hnone := lookup_eq_none (hfst.symm ▸ hk' : e.1 ∉ (keys.zip ts).map Prod.fst)
        rw [hlookup, lookup_of_mem (hfst'.symm ▸ hkeys') he] at hnone
        cases hnone
    exact ⟨hperm.length_eq, hentries⟩
  · rintro ⟨hlength, hentries⟩
    have hsub : keys ⊆ keys' := fun k hk => by
      obtain ⟨t, ht⟩ := hmem hk
      exact hsome (hentries _ ht)
    have hperm : keys.Perm keys' :=
      (subperm_of_subset hkeys hsub).perm_of_length_le hlength.ge
    funext p
    cases p with
    | inner | index => rfl
    | key k =>
      by_cases hk : k ∈ keys
      · obtain ⟨t, ht⟩ := hmem hk
        exact (lookup_of_mem (hfst.symm ▸ hkeys) ht).trans (hentries _ ht).symm
      · have hk' : k ∉ keys' := fun h => hk (hperm.mem_iff.2 h)
        exact (lookup_eq_none (hfst.symm ▸ hk)).trans (lookup_eq_none (hfst'.symm ▸ hk')).symm

end Children

/-! ## Heaps that grow -/

/-- The heap has grown: the cells that were in use are the same. -/
structure Extends (h h' : Heap τ κ σ) : Prop where
  next_le : h.next ≤ h'.next
  kept : ∀ a < h.next, h'.cell a = h.cell a

theorem Extends.refl (h : Heap τ κ σ) : Extends h h := ⟨le_rfl, fun _ _ => rfl⟩

variable {h' : Heap τ κ σ} {h : Heap τ κ σ} {K : ℕ → Prop}

theorem Extends.trans {h'' : Heap τ κ σ} (h₁ : Extends h h') (h₂ : Extends h' h'') :
    Extends h h'' where
  next_le := h₁.next_le.trans h₂.next_le
  kept a ha := (h₂.kept a (ha.trans_le h₁.next_le)).trans (h₁.kept a ha)

variable {a : ℕ} {c : Cell τ κ σ} {t : τ}

theorem Heap.lt_next (hc : h.cell a = some c) : a < h.next := by
  by_contra hle
  rw [h.unused a (not_lt.1 hle)] at hc
  cases hc

theorem Extends.cell_eq (hext : Extends h h') (hc : h.cell a = some c) : h'.cell a = some c := by
  rw [hext.kept a (h.lt_next hc), hc]

theorem extends_alloc (h : Heap τ κ σ) (c : Cell τ κ σ) : Extends h (h.alloc c).2 where
  next_le := Nat.le_succ _
  kept _ ha := if_neg (Nat.ne_of_lt ha)

theorem cell_alloc (h : Heap τ κ σ) (c : Cell τ κ σ) :
    (h.alloc c).2.cell (h.alloc c).1 = some c :=
  if_pos rfl

section Growth

variable [DecidableEq κ]

theorem Extends.view_eq (hext : Extends h h')
    {x : Label τ σ × (Pos κ → Option (Val τ σ))} (hv : h.view v = some x) : h'.view v = some x := by
  cases v with
  | pointer t a =>
    obtain ⟨u, hc, heq⟩ := view_pointer_iff.1 hv
    exact view_pointer_iff.2 ⟨u, hext.cell_eq hc, heq⟩
  | slice t a =>
    obtain ⟨vs, hc, heq⟩ := view_slice_iff.1 hv
    exact view_slice_iff.2 ⟨vs, hext.cell_eq hc, heq⟩
  | map t a =>
    obtain ⟨es, hes, hc, heq⟩ := view_map_iff.1 hv
    exact view_map_iff.2 ⟨es, hes, hext.cell_eq hc, heq⟩
  | scalar | null | iface | struct => exact hv

/-- A heap that has grown still holds the tree. -/
theorem Denotes.mono (hext : Extends h h') {t : ValTree τ κ σ} (hv : Denotes h n v t) :
    Denotes h' n v t := by
  induction n generalizing v t with
  | zero => exact hv.elim
  | succ n ih =>
    obtain ⟨label, child⟩ := t
    obtain ⟨kids, hview, hkids⟩ := hv
    exact ⟨kids, hext.view_eq hview, fun p => optionRel_mono (fun _ _ => ih) (hkids p)⟩

end Growth

/-! ## Frames -/

/-- The value itself refers to the address. -/
inductive Refers : Val τ σ → ℕ → Prop
  | pointer {t : τ} {a : ℕ} : Refers (.pointer t a) a
  | slice {t : τ} {a : ℕ} : Refers (.slice t a) a
  | map {t : τ} {a : ℕ} : Refers (.map t a) a
  | iface {t : τ} {v : Val τ σ} {a : ℕ} (h : Refers v a) : Refers (.iface t v) a
  | field {t : τ} {fields : List (Val τ σ)} {v : Val τ σ} {a : ℕ} (hv : v ∈ fields)
      (h : Refers v a) : Refers (.struct t fields) a

/-- The value refers to addresses in `K` only. -/
def Knows (K : ℕ → Prop) (v : Val τ σ) : Prop := ∀ a, Refers v a → K a

/-- So do the values of the cell. -/
def KnowsCell (K : ℕ → Prop) (c : Cell τ κ σ) : Prop := ∀ v ∈ c.values, Knows K v

/-- So do the cells at the addresses in `K`. -/
def Closed (K : ℕ → Prop) (h : Heap τ κ σ) : Prop :=
  ∀ a c, K a → h.cell a = some c → KnowsCell K c

theorem Knows.mono {K' : ℕ → Prop} (hK : ∀ a, K a → K' a) (hv : Knows K v) : Knows K' v :=
  fun a ha => hK a (hv a ha)

theorem knows_scalar (K : ℕ → Prop) (t : τ) (s : σ) : Knows K (.scalar t s) := nofun

theorem knows_null (K : ℕ → Prop) (t : τ) : Knows K (.null t : Val τ σ) := nofun

theorem knows_pointer_iff : Knows K (.pointer t a : Val τ σ) ↔ K a :=
  ⟨fun h => h a .pointer, fun h b hb => by cases hb; exact h⟩

theorem knows_slice_iff : Knows K (.slice t a : Val τ σ) ↔ K a :=
  ⟨fun h => h a .slice, fun h b hb => by cases hb; exact h⟩

theorem knows_map_iff : Knows K (.map t a : Val τ σ) ↔ K a :=
  ⟨fun h => h a .map, fun h b hb => by cases hb; exact h⟩

theorem knows_iface_iff : Knows K (.iface t v) ↔ Knows K v :=
  ⟨fun h a ha => h a (.iface ha), fun h a ha => by cases ha with | iface ha => exact h a ha⟩

theorem knows_struct_iff {fields : List (Val τ σ)} :
    Knows K (.struct t fields) ↔ ∀ v ∈ fields, Knows K v :=
  ⟨fun h v hv a ha => h a (.field hv ha),
    fun h a ha => by cases ha with | field hv ha => exact h _ hv a ha⟩

variable {w : Val τ σ}

section Framing

variable {p : Pos κ}

theorem mem_of_byIndex (h : byIndex vs p = some w) : w ∈ vs := by
  cases p with
  | index i => exact mem_of_getElem? h
  | inner | key => cases h

theorem eq_of_onlyInner (h : onlyInner v p = some w) : w = v := by
  cases p with
  | inner => exact (Option.some.inj h).symm
  | index | key => cases h

variable [DecidableEq κ] {K : ℕ → Prop} {h h' : Heap τ κ σ}

theorem view_agree (hagree : ∀ a, K a → h'.cell a = h.cell a) (hv : Knows K v) :
    h'.view v = h.view v := by
  cases v with
  | pointer t a => simp only [Heap.view, hagree a (knows_pointer_iff.1 hv)]
  | slice t a => simp only [Heap.view, hagree a (knows_slice_iff.1 hv)]
  | map t a => simp only [Heap.view, hagree a (knows_map_iff.1 hv)]
  | scalar | null | iface | struct => rfl

theorem mem_of_byKey {es : List (κ × Val τ σ)} (h : byKey es p = some w) : w ∈ es.map Prod.snd := by
  cases p with
  | key k => exact mem_map_of_mem (f := Prod.snd) (mem_of_lookup h)
  | inner | index => cases h

/-- The children of a value know no more than its cells. -/
theorem knows_kid (hclosed : Closed K h) {label : Label τ σ} {kids : Pos κ → Option (Val τ σ)}
    (hv : Knows K v) (hview : h.view v = some (label, kids)) (hp : kids p = some w) :
    Knows K w := by
  cases v with
  | scalar | null => obtain ⟨rfl, rfl⟩ := Prod.mk.inj (Option.some.inj hview); cases hp
  | pointer t a =>
    obtain ⟨u, hc, heq⟩ := view_pointer_iff.1 hview
    obtain ⟨rfl, rfl⟩ := Prod.mk.inj heq
    rw [eq_of_onlyInner hp]
    exact hclosed a _ (knows_pointer_iff.1 hv) hc u (mem_singleton_self u)
  | slice t a =>
    obtain ⟨vs, hc, heq⟩ := view_slice_iff.1 hview
    obtain ⟨rfl, rfl⟩ := Prod.mk.inj heq
    exact hclosed a _ (knows_slice_iff.1 hv) hc w (mem_of_byIndex hp)
  | map t a =>
    obtain ⟨es, hes, hc, heq⟩ := view_map_iff.1 hview
    obtain ⟨rfl, rfl⟩ := Prod.mk.inj heq
    exact hclosed a _ (knows_map_iff.1 hv) hc w (mem_of_byKey hp)
  | iface t u =>
    obtain ⟨rfl, rfl⟩ := Prod.mk.inj (Option.some.inj hview)
    rw [eq_of_onlyInner hp]
    exact knows_iface_iff.1 hv
  | struct t fields =>
    obtain ⟨rfl, rfl⟩ := Prod.mk.inj (Option.some.inj hview)
    exact knows_struct_iff.1 hv w (mem_of_byIndex hp)

/-- **Frame.** A heap that is the same at the addresses a value knows holds the same tree. -/
theorem Denotes.frame (hclosed : Closed K h) (hagree : ∀ a, K a → h'.cell a = h.cell a)
    {t : ValTree τ κ σ} (hknows : Knows K v) (hv : Denotes h n v t) : Denotes h' n v t := by
  induction n generalizing v t with
  | zero => exact hv.elim
  | succ n ih =>
    obtain ⟨label, child⟩ := t
    obtain ⟨kids, hview, hkids⟩ := hv
    refine ⟨kids, (view_agree hagree hknows).trans hview, fun p => ?_⟩
    have hp := hkids p
    generalize child p = c at hp ⊢
    cases hkid : kids p with
    | none =>
      rw [hkid] at hp
      cases hp with
      | none => exact .none
    | some w =>
      rw [hkid] at hp
      cases hp with
      | some hu => exact .some (ih (knows_kid hclosed hknows hview hkid) hu)

end Framing

/-! ## Fresh cells -/

/-- The addresses from `a` up to `b`. -/
def Within (a b x : ℕ) : Prop := a ≤ x ∧ x < b

theorem Within.mono {b a' b' x : ℕ} (ha : a' ≤ a) (hb : b ≤ b') (h : Within a b x) :
    Within a' b' x :=
  ⟨ha.trans h.1, h.2.trans_le hb⟩

/-- The heap has grown by cells that refer to each other only. -/
structure Fresh (h h' : Heap τ κ σ) : Prop extends Extends h h' where
  closed : Closed (Within h.next h'.next) h'

theorem Fresh.refl (h : Heap τ κ σ) : Fresh h h where
  toExtends := Extends.refl h
  closed _ _ ha := absurd ha.2 (not_lt.2 ha.1)

theorem Fresh.trans {h'' : Heap τ κ σ} (h₁ : Fresh h h') (h₂ : Fresh h' h'') :
    Fresh h h'' where
  toExtends := h₁.toExtends.trans h₂.toExtends
  closed a c ha hc v hv := by
    rcases Nat.lt_or_ge a h'.next with hlt | hge
    · rw [h₂.kept a hlt] at hc
      exact (h₁.closed a c ⟨ha.1, hlt⟩ hc v hv).mono fun x hx => hx.mono le_rfl h₂.next_le
    · exact (h₂.closed a c ⟨hge, ha.2⟩ hc v hv).mono fun x hx => hx.mono h₁.next_le le_rfl

/-- A cell that refers to fresh cells only is a fresh cell. -/
theorem Fresh.alloc (hf : Fresh h h') (hc : KnowsCell (Within h.next h'.next) c) :
    Fresh h (h'.alloc c).2 where
  toExtends := hf.toExtends.trans (extends_alloc h' c)
  closed a c' ha hc' v hv := by
    have hmono : ∀ x, Within h.next h'.next x → Within h.next (h'.alloc c).2.next x :=
      fun x hx => hx.mono le_rfl (extends_alloc h' c).next_le
    by_cases heq : a = h'.next
    · subst heq
      obtain rfl : c = c' := Option.some.inj ((cell_alloc h' c).symm.trans hc')
      exact (hc v hv).mono hmono
    · have hlt : a < h'.next := by
        have := ha.2
        simp only [Heap.alloc] at this
        omega
      rw [(extends_alloc h' c).kept a hlt] at hc'
      exact (hf.closed a c' ⟨ha.1, hlt⟩ hc' v hv).mono hmono

theorem within_alloc (hf : Extends h h') (c : Cell τ κ σ) :
    Within h.next (h'.alloc c).2.next (h'.alloc c).1 :=
  ⟨hf.next_le, Nat.lt_succ_self _⟩

end Gombit.Memory
