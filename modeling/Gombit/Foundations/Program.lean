import Mathlib.Order.Defs.Unbundled

/-!
# Programs that keep to a relation

A program that may fail is an `EStateM`: it ends with a value or an error, and in a state either
way (`after`). `Leads R x` says that `x` takes every state to one that `R` relates to it. For a
reflexive and transitive `R` it is enough to look at the commands: `Leads.bind` composes.

A check that a value has to pass is an `Except`: `require` is one check, and checks that pass one after
another passed each (`ok_of_bind`). A loop that ends without an error passed every element
(`ok_of_foldlM`) and keeps what each of its turns keeps (`foldlM_preserves`).
-/

namespace Gombit

variable {ε σ α β : Type}

/-- The state a program ends in, however it ends. -/
def after (x : EStateM ε σ α) (s : σ) : σ :=
  match x.run s with
  | .ok _ s' => s'
  | .error _ s' => s'

/-- The program takes every state to a related one. -/
def Leads (R : σ → σ → Prop) (x : EStateM ε σ α) : Prop := ∀ s, R s (after x s)

theorem after_eq {x : EStateM ε σ α} {s s' : σ} {a : α} (h : x.run s = .ok a s') :
    after x s = s' := by
  simp [after, h]

namespace Leads

variable {R : σ → σ → Prop}

theorem pure [Std.Refl R] (a : α) : Leads R (Pure.pure a : EStateM ε σ α) := fun s => refl s

theorem throw [Std.Refl R] (e : ε) : Leads R (MonadExcept.throw e : EStateM ε σ α) := fun s => refl s

theorem bind [IsTrans σ R] {x : EStateM ε σ α} {f : α → EStateM ε σ β} (hx : Leads R x)
    (hf : ∀ a, Leads R (f a)) : Leads R (x >>= f) := by
  intro s
  have hs := hx s
  simp only [after, EStateM.run_bind] at hs ⊢
  cases hrun : x.run s with
  | ok a s' =>
    rw [hrun] at hs
    exact IsTrans.trans _ _ _ hs (hf a s')
  | error e s' =>
    rw [hrun] at hs
    exact hs

theorem ite {c : Prop} [Decidable c] {x y : EStateM ε σ α} (hx : Leads R x) (hy : Leads R y) :
    Leads R (if c then x else y) := by
  split
  · exact hx
  · exact hy

end Leads

section Checks

/-- A condition that has to hold. -/
def require (p : Prop) [Decidable p] (e : ε) : Except ε Unit := if p then .ok () else .error e

theorem of_require {p : Prop} [Decidable p] {e : ε} {u : Unit} (h : require p e = .ok u) : p := by
  unfold require at h
  split at h
  · assumption
  · cases h

theorem ok_of_bind {x : Except ε α} {f : α → Except ε β} {b : β} (h : x >>= f = .ok b) :
    ∃ a, x = .ok a ∧ f a = .ok b := by
  cases x with
  | error e => cases h
  | ok a => exact ⟨a, rfl, h⟩

theorem ok_of_map {x : Except ε α} {f : α → β} {b : β} (h : x.map f = .ok b) :
    ∃ a, x = .ok a ∧ f a = b := by
  cases x with
  | error e => cases h
  | ok a => exact ⟨a, rfl, Except.ok.inj h⟩

section Loops

variable {step : σ → α → Except ε σ} {xs : List α} {s s' : σ}

theorem ok_of_foldlM (h : xs.foldlM step s = .ok s') {x : α} (hx : x ∈ xs) :
    ∃ t t', step t x = .ok t' := by
  obtain ⟨a, b, rfl⟩ := List.append_of_mem hx
  rw [List.foldlM_append] at h
  obtain ⟨t, -, h⟩ := ok_of_bind h
  rw [List.foldlM_cons] at h
  obtain ⟨t', ht, -⟩ := ok_of_bind h
  exact ⟨t, t', ht⟩

theorem foldlM_preserves {P : σ → Prop} (hstep : ∀ s, ∀ x ∈ xs, ∀ s', step s x = .ok s' → P s → P s')
    (h : xs.foldlM step s = .ok s') (hs : P s) : P s' := by
  induction xs generalizing s with
  | nil =>
    cases h
    exact hs
  | cons x xs ih =>
    rw [List.foldlM_cons] at h
    obtain ⟨t, ht, hrest⟩ := ok_of_bind h
    refine ih (fun s y hy => hstep s y (List.mem_cons_of_mem x hy)) hrest ?_
    exact hstep s x List.mem_cons_self t ht hs

end Loops

end Checks

end Gombit
