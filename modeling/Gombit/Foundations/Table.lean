import Mathlib.Data.List.AList

/-!
# Finite tables, and the loops over them

A table is an association list with distinct keys. Two loops over the entries of a table occur
in the programs verified here:

* `Table.eraseIf`, which deletes every entry a test selects while it ranges over the table;
* `firstBy`, which keeps the least of the candidates seen so far.

The specifications (`lookup_eraseIf`, `firstBy_eq_none_iff`, `firstBy_mem`, `firstBy_least`) do
not mention the order of the entries, so they hold in whatever order a loop visits them.
-/

namespace Gombit

/-- A finite table from `α` to `β`. -/
abbrev Table (α β : Type*) := AList fun _ : α => β

namespace Table

variable {α β : Type*} [DecidableEq α]

theorem mem_entries_iff {t : Table α β} {a : α} {b : β} :
    (⟨a, b⟩ : Sigma fun _ : α => β) ∈ t.entries ↔ t.lookup a = some b :=
  AList.mem_lookup_iff.symm

/-- Delete, while ranging over the table, every entry that `p` selects. -/
def eraseIf (p : α → β → Bool) (t : Table α β) : Table α β :=
  t.entries.foldl (fun m e => if p e.1 e.2 then m.erase e.1 else m) t

theorem lookup_foldl_erase (p : α → β → Bool) (l : List (Sigma fun _ : α => β)) (t : Table α β)
    (a : α) :
    (l.foldl (fun m e => if p e.1 e.2 then m.erase e.1 else m) t).lookup a =
      if l.any (fun e => decide (e.1 = a) && p e.1 e.2) then none else t.lookup a := by
  induction l generalizing t with
  | nil => simp
  | cons e l ih =>
    rw [List.foldl_cons, ih]
    by_cases hl : l.any (fun e => decide (e.1 = a) && p e.1 e.2)
    · simp [hl]
    · by_cases hp : p e.1 e.2
      · by_cases ha : e.1 = a
        · subst ha; simp [hp]
        · simp [hl, hp, ha, AList.lookup_erase_ne (Ne.symm ha)]
      · simp [hl, hp]

/-- The deleted entries are exactly those `p` selects. -/
@[simp] theorem lookup_eraseIf (p : α → β → Bool) (t : Table α β) (a : α) :
    (t.eraseIf p).lookup a = (t.lookup a).filter fun b => !p a b := by
  unfold eraseIf
  rw [lookup_foldl_erase]
  cases hb : t.lookup a with
  | none =>
    simp
  | some b =>
    have hany : t.entries.any (fun e => decide (e.1 = a) && p e.1 e.2) = p a b := by
      rw [Bool.eq_iff_iff, List.any_eq_true]
      constructor
      · rintro ⟨⟨a', b'⟩, he, h⟩
        simp only [Bool.and_eq_true, decide_eq_true_eq] at h
        obtain ⟨rfl, h⟩ := h
        rw [mem_entries_iff, hb] at he
        cases he
        exact h
      · intro h
        exact ⟨⟨a, b⟩, mem_entries_iff.2 hb, by simp [h]⟩
    rw [hany]
    cases hp : p a b <;> simp [Option.filter, hp]

end Table

/-! ## The least candidate of a loop -/

section FirstBy

variable {α : Type*} (p : α → Bool) (lt : α → α → Bool)

/-- One iteration: skip what is no candidate, and replace the best so far by what comes before
it. -/
def firstStep (next : Option α) (a : α) : Option α :=
  if p a then
    match next with
    | none => some a
    | some b => if lt a b then some a else some b
  else next

/-- The least candidate, in the order `lt`, of a loop over `l`. -/
def firstBy (l : List α) : Option α := l.foldl (firstStep p lt) none

variable {p lt}

variable {l : List α}

theorem foldl_firstStep_some {b : α} :
    ∃ a, l.foldl (firstStep p lt) (some b) = some a := by
  induction l generalizing b with
  | nil => exact ⟨b, rfl⟩
  | cons c l ih =>
    rw [List.foldl_cons]
    unfold firstStep
    split
    · dsimp only
      split <;> exact ih
    · exact ih

theorem firstBy_eq_none_iff : firstBy p lt l = none ↔ ∀ a ∈ l, p a = false := by
  unfold firstBy
  induction l with
  | nil => simp
  | cons c l ih =>
    rw [List.foldl_cons]
    cases hc : p c with
    | false => simpa [firstStep, hc] using ih
    | true =>
      obtain ⟨a, ha⟩ := @foldl_firstStep_some _ p lt l c
      simp [firstStep, hc, ha]

/-- One iteration takes a candidate that comes before the best so far, or keeps the best. -/
theorem firstStep_cases (next : Option α) (c : α) :
    (firstStep p lt next c = some c ∧ p c ∧ ∀ d, next = some d → lt c d) ∨
      firstStep p lt next c = next ∧ (p c → ∃ d, next = some d ∧ lt c d = false) := by
  by_cases hc : p c
  · cases next with
    | none => exact .inl ⟨by simp [firstStep, hc], hc, by simp⟩
    | some d =>
      by_cases hlt : lt c d
      · exact .inl ⟨by simp [firstStep, hc, hlt], hc, by simpa using hlt⟩
      · exact .inr ⟨by simp [firstStep, hc, hlt], fun _ => ⟨d, rfl, by simpa using hlt⟩⟩
  · exact .inr ⟨by simp [firstStep, hc], fun hp => absurd hp hc⟩

variable (htrans : ∀ a b c, lt a b = false → lt b c = false → lt a c = false)
  (hasymm : ∀ a b, lt a b → lt b a = false)

include htrans hasymm

/-- What the loop has at the end: a candidate it started with or met, and no candidate it met
comes before it. -/
theorem foldl_firstStep_spec (l : List α) (next : Option α) (a : α)
    (h : l.foldl (firstStep p lt) next = some a) :
    (next = some a ∨ a ∈ l ∧ p a) ∧ (∀ b ∈ l, p b → lt b a = false) ∧
      ∀ b, next = some b → lt b a = false := by
  induction l generalizing next with
  | nil =>
    obtain rfl : next = some a := h
    refine ⟨.inl rfl, by simp, ?_⟩
    rintro b ⟨⟩
    by_contra haa
    exact haa (hasymm a a (by simpa using haa))
  | cons c l ih =>
    rw [List.foldl_cons] at h
    obtain ⟨hmem, hl, hnext⟩ := ih _ h
    rw [List.forall_mem_cons]
    rcases @firstStep_cases _ p lt next c with ⟨hs, hc, hbefore⟩ | ⟨hs, hafter⟩
    · rw [hs] at hmem hnext
      have hca : lt c a = false := hnext c rfl
      refine ⟨.inr ?_, ⟨fun _ => hca, hl⟩, fun d hd => ?_⟩
      · rcases hmem with hmem | ⟨hmem, hp⟩
        · cases hmem
          exact ⟨List.mem_cons_self, hc⟩
        · exact ⟨List.mem_cons_of_mem _ hmem, hp⟩
      · -- `c` displaced `d`, so `d` is not before `c`, which is not before `a`
        exact htrans d c a (hasymm c d (hbefore d hd)) hca
    · rw [hs] at hmem hnext
      refine ⟨hmem.imp_right fun hmem => ⟨List.mem_cons_of_mem _ hmem.1, hmem.2⟩, ⟨fun hc => ?_, hl⟩,
        hnext⟩
      obtain ⟨d, hd, hcd⟩ := hafter hc
      exact htrans c d a hcd (hnext d hd)

theorem firstBy_mem {a : α} (h : firstBy p lt l = some a) : a ∈ l ∧ p a := by
  rcases (foldl_firstStep_spec htrans hasymm l none a h).1 with h | h
  · cases h
  · exact h

/-- **The loop ends with a least candidate.** -/
theorem firstBy_least {a b : α} (h : firstBy p lt l = some a) (hb : b ∈ l) (hpb : p b) :
    lt b a = false :=
  (foldl_firstStep_spec htrans hasymm l none a h).2.1 b hb hpb

end FirstBy

end Gombit
