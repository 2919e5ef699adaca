import Gombit.Foundations.Scanning
import Mathlib.Data.List.Infix

/-!
# Searching a list

`database.Search`: the `LIKE` conditions a search term adds to a list query. A text is the list of
its Unicode characters, so it is valid UTF-8. The conditions look for the term itself
(`search_literal`), whatever wildcards are in it.
-/

namespace Gombit.Database

open List

/-- The standard `LIKE` with the backslash as its escape: the pattern, then the text. -/
def like : List Char → List Char → Bool
  | [], text => text.isEmpty
  | c :: p, text =>
    if c = '%' then text.tails.any (like p)
    else if c = '_' then !text.isEmpty && like p text.tail
    else if c = '\\' then
      match p with
      | [] => false
      | d :: p' => text.head? == some d && like p' text.tail
    else text.head? == some c && like p text.tail

/-- `strings.ReplaceAll` of one character. -/
def replaceAll (s : List Char) (old : Char) (new : List Char) : List Char :=
  s.flatMap fun c => if c = old then new else [c]

/-- `escapeLike`. -/
def escapeLike (s : List Char) : List Char :=
  replaceAll (replaceAll (replaceAll s '\\' ['\\', '\\']) '%' ['\\', '%']) '_' ['\\', '_']

/-- `TextProblem`; the texts here are valid UTF-8. -/
def textProblem (s : List Char) : Option String :=
  if '\x00' ∈ s then some "must not contain a NUL character" else none

/-- `contract.Validation`: a message, and the messages of each field. -/
structure Validation where
  message : String
  fields : List (String × List String)

/-- `LOWER(column) LIKE LOWER(pattern) ESCAPE '\'`. -/
structure LowerLike where
  column : String
  pattern : List Char

/-- `Search`: what it adds to the query, `none` if nothing and otherwise the conditions of which one
has to hold. -/
def search (columns : List String) (term : List Char) :
    Except Validation (Option (List LowerLike)) :=
  let term := trimRunes term
  if term = [] ∨ columns = [] then .ok none
  else match textProblem term with
    | some msg => .error ⟨"The request contains invalid fields.", [("search", [msg])]⟩
    | none => .ok (some (columns.map fun col => ⟨col, '%' :: escapeLike term ++ ['%']⟩))

/-- The characters `LIKE` does not take for themselves. -/
def Special (c : Char) : Prop := c = '\\' ∨ c = '%' ∨ c = '_'

instance (c : Char) : Decidable (Special c) := by
  unfold Special
  infer_instance

/-- What a database's `LOWER` does to a character. -/
structure Lower where
  char : Char → Char
  char_special : ∀ c, Special c → char c = c
  special_of_char : ∀ c, Special (char c) → Special c

/-- The conditions of a query on a row, given by the texts of its columns. -/
def Holds (lower : Lower) (row : String → List Char) : Option (List LowerLike) → Prop
  | none => True
  | some conds => ∃ cond ∈ conds,
      like (cond.pattern.map lower.char) ((row cond.column).map lower.char) = true

/-- One character of a pattern that stands for itself. -/
def escaped (c : Char) : List Char := if Special c then ['\\', c] else [c]

/-- The backslash is replaced first, so that no replacement sees what another put in. -/
theorem escapeLike_eq (s : List Char) : escapeLike s = s.flatMap escaped := by
  simp only [escapeLike, replaceAll, flatMap_assoc]
  congr 1
  funext c
  by_cases hb : c = '\\'
  · subst hb
    decide
  by_cases hp : c = '%'
  · subst hp
    decide
  by_cases hu : c = '_'
  · subst hu
    decide
  simp [escaped, Special, hb, hp, hu]

theorem like_escaped (c : Char) (p text : List Char) :
    like (escaped c ++ p) text = (text.head? == some c && like p text.tail) := by
  by_cases hc : Special c
  · rw [escaped, if_pos hc]
    rfl
  · have hne : c ≠ '%' ∧ c ≠ '_' ∧ c ≠ '\\' := by
      rw [Special] at hc
      tauto
    rw [escaped, if_neg hc, singleton_append, like.eq_def]
    simp only [hne.1, hne.2.1, hne.2.2, if_false]

theorem like_flatMap_escaped (s p text : List Char) :
    like (s.flatMap escaped ++ p) text = true ↔ ∃ rest, text = s ++ rest ∧ like p rest = true := by
  induction s generalizing text with
  | nil => simp
  | cons c s ih =>
    rw [flatMap_cons, append_assoc, like_escaped]
    cases text with
    | nil => simp
    | cons e rest => simp [ih, and_assoc]

theorem like_run (p text : List Char) :
    like ('%' :: p) text = true ↔ ∃ rest, rest <:+ text ∧ like p rest = true := by
  rw [like.eq_def]
  simp only [if_true, any_eq_true, mem_tails]

theorem like_contains (s text : List Char) :
    like ('%' :: s.flatMap escaped ++ ['%']) text = true ↔ s <:+: text := by
  rw [cons_append, like_run]
  constructor
  · rintro ⟨rest, hrest, hlike⟩
    obtain ⟨rest', rfl, -⟩ := (like_flatMap_escaped _ _ _).1 hlike
    exact (prefix_append s rest').isInfix.trans hrest.isInfix
  · rintro ⟨before, after, rfl⟩
    refine ⟨s ++ after, ?_, (like_flatMap_escaped _ _ _).2 ⟨after, rfl, ?_⟩⟩
    · rw [append_assoc]
      exact suffix_append before (s ++ after)
    · -- the last run takes what is left
      exact (like_run [] after).2 ⟨[], List.nil_suffix, rfl⟩

theorem Lower.map_escaped (lower : Lower) (c : Char) :
    (escaped c).map lower.char = escaped (lower.char c) := by
  by_cases hc : Special c
  · rw [lower.char_special c hc, escaped, if_pos hc, map_cons, map_singleton,
      lower.char_special c hc, lower.char_special '\\' (Or.inl rfl)]
  · rw [escaped, escaped, if_neg hc, if_neg fun h => hc (lower.special_of_char c h),
      map_singleton]

/-- Lowering a pattern gives the pattern of the lowered term. -/
theorem Lower.map_pattern (lower : Lower) (s : List Char) :
    ('%' :: escapeLike s ++ ['%']).map lower.char =
      '%' :: (s.map lower.char).flatMap escaped ++ ['%'] := by
  have hp : lower.char '%' = '%' := lower.char_special '%' (by decide)
  rw [map_append, map_cons, map_singleton, hp, escapeLike_eq, map_flatMap,
    flatMap_map]
  simp only [lower.map_escaped]

/-- **Search terms are literal**: a row is found if a lowered column contains the lowered term. -/
theorem search_literal (lower : Lower) (columns : List String) (term : List Char)
    (row : String → List Char) (hnul : '\x00' ∉ term) :
    ∃ conds, search columns term = .ok conds ∧ (Holds lower row conds ↔
      columns = [] ∨ trimRunes term = [] ∨ ∃ col ∈ columns,
        (trimRunes term).map lower.char <:+: (row col).map lower.char) := by
  have htrim : '\x00' ∉ trimRunes term := fun h =>
    hnul ((List.dropWhile_suffix _).subset ((List.rdropWhile_prefix _ _).subset h))
  by_cases hnone : trimRunes term = [] ∨ columns = []
  · exact ⟨none, by simp [search, hnone], by simp only [Holds, true_iff]; tauto⟩
  · obtain ⟨hterm, hcols⟩ := not_or.1 hnone
    rw [search, if_neg hnone, textProblem, if_neg htrim]
    refine ⟨_, rfl, ?_⟩
    simp only [Holds, hterm, hcols, false_or, mem_map, exists_exists_and_eq_and,
      lower.map_pattern, like_contains]

/-- A search for `50%` finds `at 50%`. -/
theorem search_literal_percent :
    ∃ conds, search ["title"] [' ', '5', '0', '%'] = .ok conds ∧
      Holds ⟨id, fun _ _ => rfl, fun _ h => h⟩ (fun _ => ['a', 't', ' ', '5', '0', '%']) conds := by
  obtain ⟨conds, hsearch, hholds⟩ := search_literal ⟨id, fun _ _ => rfl, fun _ h => h⟩ ["title"]
    [' ', '5', '0', '%'] (fun _ => ['a', 't', ' ', '5', '0', '%']) (by decide)
  exact ⟨conds, hsearch, hholds.2 (Or.inr (Or.inr ⟨"title", by simp, ['a', 't', ' '], [], rfl⟩))⟩

end Gombit.Database
