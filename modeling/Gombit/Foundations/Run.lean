import Mathlib.Data.List.Induction

/-!
# Runs of a labelled transition relation

A system is a relation `step s e s'`: from the state `s`, the event `e` can lead to `s'`. A run
is a finite sequence of steps, and its history is the list of its events, oldest first.

* `Run.preserves`: a property every step keeps is kept by every run.
* `Run.preserves_while`: a property kept by the steps whose event satisfies `P` is kept by a run
  all of whose events do. It is the rule behind "stays so until".
* `Run.events`: a property of every event, from an invariant of the states.
* `Run.history_induction`: an invariant that relates the state to the history that led to it.
* `Run.at_most_once`: an event that spends something which stays spent happens at most once.
* `Run.exists_first`: the first event that can end a property, in a run that ends it.
-/

namespace Gombit

variable {σ ε : Type*} {step : σ → ε → σ → Prop}

/-- `Run step s es s'`: the events `es`, in order, lead from `s` to `s'`. -/
inductive Run (step : σ → ε → σ → Prop) : σ → List ε → σ → Prop
  | nil (s : σ) : Run step s [] s
  | cons {s s' s'' : σ} {e : ε} {es : List ε} (h : step s e s') (hs : Run step s' es s'') :
      Run step s (e :: es) s''

namespace Run

variable {s s' : σ} {es : List ε} {I : σ → Prop}

variable {e : ε} {es' : List ε} {P : ε → Prop}

theorem single (h : step s e s') : Run step s [e] s' :=
  .cons h (.nil s')

variable {s'' : σ}

theorem append (h : Run step s es s') (h' : Run step s' es' s'') :
    Run step s (es ++ es') s'' := by
  induction h with
  | nil s => exact h'
  | cons hstep _ ih => exact .cons hstep (ih h')

theorem append_inv (h : Run step s (es ++ es') s'') :
    ∃ s', Run step s es s' ∧ Run step s' es' s'' := by
  induction es generalizing s with
  | nil => exact ⟨s, .nil s, h⟩
  | cons e es ih =>
    cases h with
    | cons hstep hrest =>
      obtain ⟨s', h₁, h₂⟩ := ih hrest
      exact ⟨s', .cons hstep h₁, h₂⟩

theorem cons_inv (h : Run step s (e :: es) s'') :
    ∃ s', step s e s' ∧ Run step s' es s'' := by
  cases h with
  | cons hstep hrest => exact ⟨_, hstep, hrest⟩

theorem snoc_inv (h : Run step s (es ++ [e]) s'') :
    ∃ s', Run step s es s' ∧ step s' e s'' := by
  obtain ⟨s', h₁, h₂⟩ := append_inv h
  obtain ⟨s₂, hstep, hnil⟩ := cons_inv h₂
  cases hnil
  exact ⟨s', h₁, hstep⟩

/-- Where an event decides the next state, the events of a run decide where it leads. -/
theorem det (hdet : ∀ s e s₁ s₂, step s e s₁ → step s e s₂ → s₁ = s₂) {s₁ s₂ : σ}
    (h₁ : Run step s es s₁) (h₂ : Run step s es s₂) : s₁ = s₂ := by
  induction h₁ with
  | nil s => cases h₂; rfl
  | cons hstep _ ih =>
    obtain ⟨s', hstep', hrest⟩ := h₂.cons_inv
    exact ih (hdet _ _ _ _ hstep hstep' ▸ hrest)

/-- **Invariants.** A property every step keeps is kept by every run. -/
theorem preserves (hI : ∀ s e s', step s e s' → I s → I s') (h : Run step s es s') (hs : I s) :
    I s' := by
  induction h with
  | nil s => exact hs
  | cons hstep _ ih => exact ih (hI _ _ _ hstep hs)

/-- **Until.** A property kept by every step whose event satisfies `P` is kept by a run all of
whose events do. -/
theorem preserves_while (hI : ∀ s e s', step s e s' → P e → I s → I s')
    (h : Run step s es s') (hP : ∀ e ∈ es, P e) (hs : I s) : I s' := by
  induction h with
  | nil s => exact hs
  | cons hstep _ ih =>
    refine ih (fun e he => hP e (List.mem_cons_of_mem _ he)) ?_
    exact hI _ _ _ hstep (hP _ List.mem_cons_self) hs

/-- **The first event that can end it.** A run that ends a property has a first event that does not
satisfy `P`, when steps whose event does keep the property. -/
theorem exists_first (hI : ∀ s e s', step s e s' → P e → I s → I s')
    (h : Run step s es s') (hs : I s) (hs' : ¬I s') :
    ∃ es₁ e es₂ s₁ s₂, es = es₁ ++ e :: es₂ ∧ (∀ e ∈ es₁, P e) ∧ ¬P e ∧ I s₁ ∧
      Run step s es₁ s₁ ∧ step s₁ e s₂ ∧ Run step s₂ es₂ s' := by
  induction h with
  | nil s => exact absurd hs hs'
  | @cons s s₁ s₂ e es hstep hrest ih =>
    by_cases he : P e
    · obtain ⟨es₁, e', es₂, t₁, t₂, rfl, hP, hP', hI₁, hrun, hstep', hrun'⟩ :=
        ih (hI _ _ _ hstep he hs) hs'
      refine ⟨e :: es₁, e', es₂, t₁, t₂, rfl, ?_, hP', hI₁, .cons hstep hrun, hstep', hrun'⟩
      simpa [he] using hP
    · exact ⟨[], e, es, s, s₁, rfl, by simp, he, hs, .nil s, hstep, hrest⟩

/-- **What every event of a run is.** When each step from a state with `I` keeps `I` and has an
event with `Q`, every event of a run from such a state has `Q`. -/
theorem events {Q : ε → Prop} (hI : ∀ s e s', step s e s' → I s → I s' ∧ Q e) (h : Run step s es s')
    (hs : I s) : ∀ e ∈ es, Q e := by
  induction h with
  | nil s => simp
  | cons hstep _ ih =>
    obtain ⟨hs', he⟩ := hI _ _ _ hstep hs
    intro e' he'
    rcases List.mem_cons.1 he' with rfl | he'
    · exact he
    · exact ih hs' e' he'

/-- **Invariants with the history.** `I es s` holds of every state `s` a run reaches by the
events `es`, when it holds at the start and the last step extends it. -/
theorem history_induction {I : List ε → σ → Prop} {s₀ : σ} (h₀ : I [] s₀)
    (hI : ∀ es s e s', Run step s₀ es s → step s e s' → I es s → I (es ++ [e]) s')
    (h : Run step s₀ es s) : I es s := by
  induction es using List.reverseRecOn generalizing s with
  | nil => cases h; exact h₀
  | append_singleton es e ih =>
    obtain ⟨s', h₁, hstep⟩ := h.snoc_inv
    exact hI es s' e s h₁ hstep (ih h₁)

/-- **At most once.** An event with `p` needs a state where something is not spent yet, and spends
it; what is spent stays spent. -/
theorem at_most_once (Spent : σ → Prop) {p : ε → Bool} (hI : ∀ s e s', step s e s' → I s → I s')
    (hkept : ∀ s e s', step s e s' → I s → Spent s → Spent s')
    (hspends : ∀ s e s', step s e s' → I s → p e = true → ¬ Spent s ∧ Spent s')
    (h : Run step s es s') (hs : I s) : es.countP p ≤ 1 := by
  suffices hboth : es.countP p ≤ 1 ∧ (Spent s → es.countP p = 0) from hboth.1
  induction h with
  | nil s => simp
  | cons hstep _ ih =>
    obtain ⟨hle, hzero⟩ := ih (hI _ _ _ hstep hs)
    rw [List.countP_cons]
    split
    · rename_i he
      obtain ⟨hfresh, hspent⟩ := hspends _ _ _ hstep hs he
      have hrest := hzero hspent
      exact ⟨by omega, fun hs => absurd hs hfresh⟩
    · exact ⟨hle, fun hspent => hzero (hkept _ _ _ hstep hs hspent)⟩

end Run

end Gombit
