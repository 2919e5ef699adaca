import Gombit.Foundations.Scanning

/-!
# Statements of a migration

`manifest.Statements` reads the statements of a migration: it cuts every line at `--`, splits the rest
at semicolons and drops the empty statements. A comment line and a blank line add nothing
(`splitStatements_comment`, `splitStatements_blank`), and a statement on a line of its own is read as
it is written (`splitStatements_statement`).
-/

namespace Gombit.Manifest

open List

/-- The text without comments: every line up to `--`. -/
def stripComments (sql : List Char) : List Char :=
  (sql.splitOn '\n').flatMap fun line => upTo ['-', '-'] line ++ ['\n']

/-- The trimmed parts of a text between semicolons that are not empty. -/
def cutStatements (text : List Char) : List (List Char) :=
  ((text.splitOn ';').map trimRunes).filter fun s => s ≠ []

/-- `splitStatements`, and so `Statements`. -/
def splitStatements (sql : List Char) : List (List Char) := cutStatements (stripComments sql)

variable {l s : List Char}

theorem stripComments_line (h : '\n' ∉ l) (t : List Char) :
    stripComments (l ++ '\n' :: t) = upTo ['-', '-'] l ++ '\n' :: stripComments t := by
  rw [stripComments, splitOn_append_cons_self_of_not_mem h, flatMap_cons, append_assoc]
  rfl

theorem cutStatements_space {c : Char} (h : isSpaceRune c = true) (s : List Char) :
    cutStatements (c :: s) = cutStatements s := by
  have hc : ¬ c = ';' := by
    rintro rfl
    exact absurd h (by decide)
  rw [cutStatements, cutStatements, List.splitOn, splitOnP_cons_eq_if_modifyHead,
    if_neg (by simpa using hc), ← List.splitOn]
  cases s.splitOn ';' with
  | nil => rfl
  | cons p ps => rw [modifyHead_cons, map_cons, map_cons, trimRunes_cons_space h]

theorem cutStatements_append (hs : ';' ∉ s) (hne : trimRunes s ≠ []) (t : List Char) :
    cutStatements (s ++ ';' :: t) = trimRunes s :: cutStatements t := by
  rw [cutStatements, splitOn_append_cons_self_of_not_mem hs, map_cons,
    filter_cons_of_pos (by simpa using hne), cutStatements]

/-- A blank line is not a statement. -/
theorem splitStatements_blank (t : List Char) : splitStatements ('\n' :: t) = splitStatements t := by
  rw [splitStatements, ← nil_append ('\n' :: t), stripComments_line not_mem_nil]
  exact cutStatements_space (by decide) _

/-- **A comment line is not a statement.** -/
theorem splitStatements_comment (h : '\n' ∉ l) (t : List Char) :
    splitStatements ('-' :: '-' :: l ++ '\n' :: t) = splitStatements t := by
  have hline : '\n' ∉ '-' :: '-' :: l := by simpa using h
  rw [splitStatements, stripComments_line hline]
  have hcut : upTo ['-', '-'] ('-' :: '-' :: l) = [] := upTo_append_of_prefix (by simp) l
  rw [hcut]
  exact cutStatements_space (by decide) _

/-- **A statement on a line of its own.** -/
theorem splitStatements_statement (hline : '\n' ∉ s) (hsemi : ';' ∉ s)
    (hdash : ¬ ['-', '-'] <:+: s ++ [';']) (hne : trimRunes s ≠ []) (t : List Char) :
    splitStatements (s ++ ';' :: '\n' :: t) = trimRunes s :: splitStatements t := by
  have hline' : '\n' ∉ s ++ [';'] := by
    rw [mem_append, not_or]
    exact ⟨hline, by decide⟩
  rw [splitStatements, ← singleton_append, ← append_assoc, stripComments_line hline',
    upTo_of_not_infix hdash, append_assoc, singleton_append, cutStatements_append hsemi hne,
    cutStatements_space (by decide)]
  rfl

end Gombit.Manifest
