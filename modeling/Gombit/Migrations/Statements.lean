import Gombit.Foundations.Scanning

/-!
# Statements of SQL files

`splitSQLStatements` cuts a text at the semicolons outside strings, quoted identifiers and comments
and leaves out the parts that are comments only. It is compared with the statements that a lexer
gives (`lexSQL`, `statements`).

* `splitLoop_eq`: the scanner cuts the text where the lexer does.
* `commentOnly_tokens`: a part is found to be comments only by skipping one comment after another. The
  end of a block comment is searched from its opener on, so `/*/` passes for a whole comment.
* `splitSQLStatements_eq_statements`: the statements are returned if no part begins with such a comment;
  in `splitSQLStatements_skips` one is lost.

A text is a list of characters.
-/

namespace Gombit.Migrations

open List

/-! ## The scanner -/

/-- The flags of the loop, of which at most one is set. -/
inductive Mode
  | normal
  | inSingle
  | inDouble
  | inLineComment
  | inBlockComment

/-- What one turn of the loop does with the character: keep it, keep it with the next one, or end the
statement. -/
inductive Turn
  | keep (mode : Mode)
  | keepBoth (mode : Mode)
  | cut

/-- Inside quotes: a doubled quote stands for itself. -/
def turnQuoted (q : Char) (mode : Mode) (r : Char) (next : Option Char) : Turn :=
  if r = q then if next = some q then .keepBoth mode else .keep .normal else .keep mode

/-- The cases of the loop of `splitSQLStatements`. -/
def turn (mode : Mode) (r : Char) (next : Option Char) : Turn :=
  match mode with
  | .inLineComment => .keep (if r = '\n' then .normal else .inLineComment)
  | .inBlockComment =>
    if r = '*' ∧ next = some '/' then .keepBoth .normal else .keep .inBlockComment
  | .inSingle => turnQuoted '\'' .inSingle r next
  | .inDouble => turnQuoted '"' .inDouble r next
  | .normal =>
    if r = '-' ∧ next = some '-' then .keepBoth .inLineComment
    else if r = '/' ∧ next = some '*' then .keepBoth .inBlockComment
    else if r = '\'' then .keep .inSingle
    else if r = '"' then .keep .inDouble
    else if r = ';' then .cut
    else .keep .normal

/-- The loop of `isSQLCommentOnly`, which drops one comment in each turn; the fuel is the length of the
text. -/
def commentLoop : ℕ → List Char → Bool
  | 0, _ => true
  | n + 1, remaining =>
    if remaining = [] then true
    else if ['-', '-'].isPrefixOf remaining then
      match afterFirst ['\n'] remaining with
      | some rest => commentLoop n (trimRunes rest)
      | none => true
    else if ['/', '*'].isPrefixOf remaining then
      match afterFirst ['*', '/'] remaining with
      | some rest => commentLoop n (trimRunes rest)
      | none => true
    else false

def isSQLCommentOnly (stmt : List Char) : Bool := commentLoop stmt.length (trimRunes stmt)

/-- The end of a statement: it is kept unless it is empty or comments only. -/
def closeStatement (current : List Char) : List (List Char) :=
  if trimRunes current ≠ [] ∧ isSQLCommentOnly (trimRunes current) = false then [trimRunes current]
  else []

/-- The loop of `splitSQLStatements`. -/
def splitLoop (mode : Mode) (current : List Char) : List Char → List (List Char)
  | [] => closeStatement current
  | r :: s =>
    match turn mode r s.head? with
    | .keep mode => splitLoop mode (current ++ [r]) s
    | .cut => closeStatement current ++ splitLoop .normal [] s
    | .keepBoth mode =>
      match s with
      | [] => closeStatement (current ++ [r])
      | next :: s => splitLoop mode (current ++ [r, next]) s

/-- `splitSQLStatements`. -/
def splitSQLStatements (sql : List Char) : List (List Char) := splitLoop .normal [] sql

/-! ## The lexer -/

/-- A token: a string or quoted identifier, a comment, or a character. -/
inductive Token
  | char (c : Char)
  | quoted (text : List Char)
  | lineComment (body : List Char)
  | blockComment (body : List Char)
  deriving DecidableEq

/-- The text of a token. -/
def Token.text : Token → List Char
  | .char c => [c]
  | .quoted text => text
  | .lineComment body => '-' :: '-' :: body
  | .blockComment body => '/' :: '*' :: body

/-- The characters of a token that are outside comments. -/
def Token.outside : Token → List Char
  | .char c => [c]
  | .quoted text => text
  | .lineComment _ => []
  | .blockComment _ => []

/-- A text up to the end of the line, and the rest. -/
def lineEnd : List Char → List Char × List Char
  | [] => ([], [])
  | c :: s => if c = '\n' then ([c], s) else (c :: (lineEnd s).1, (lineEnd s).2)

/-- A text up to the first `*/`, and the rest. -/
def blockEnd : List Char → List Char × List Char
  | [] => ([], [])
  | [c] => ([c], [])
  | c :: d :: s =>
    if c = '*' ∧ d = '/' then ([c, d], s)
    else (c :: (blockEnd (d :: s)).1, (blockEnd (d :: s)).2)

/-- A text up to the first quote that is not doubled, and the rest. -/
def quoteEnd (q : Char) : List Char → List Char × List Char
  | [] => ([], [])
  | [c] => ([c], [])
  | c :: d :: s =>
    if c = q then
      if d = q then (c :: d :: (quoteEnd q s).1, (quoteEnd q s).2) else ([c], d :: s)
    else (c :: (quoteEnd q (d :: s)).1, (quoteEnd q (d :: s)).2)

/-- The first token of a text, and the rest. -/
def readToken (c : Char) (s : List Char) : Token × List Char :=
  if c = '-' ∧ s.head? = some '-' then (.lineComment (lineEnd s.tail).1, (lineEnd s.tail).2)
  else if c = '/' ∧ s.head? = some '*' then (.blockComment (blockEnd s.tail).1, (blockEnd s.tail).2)
  else if c = '\'' ∨ c = '"' then (.quoted (c :: (quoteEnd c s).1), (quoteEnd c s).2)
  else (.char c, s)

/-- The first tokens of a text, at most `n`. -/
def readTokens : ℕ → List Char → List Token
  | 0, _ => []
  | _, [] => []
  | n + 1, c :: s => (readToken c s).1 :: readTokens n (readToken c s).2

/-- The tokens of a text. -/
def lexSQL (sql : List Char) : List Token := readTokens sql.length sql

/-- The text of some tokens. -/
def tokensText (ts : List Token) : List Char := ts.flatMap Token.text

/-- The parts of a text between the semicolons outside strings, quoted identifiers and comments. -/
def fragments (sql : List Char) : List (List Token) := (lexSQL sql).splitOn (.char ';')

/-- Some character that is not white space is outside comments. -/
def significant (ts : List Token) : Bool := ts.any fun t => t.outside.any fun c => !isSpaceRune c

/-- The statements of a text. -/
def statements (sql : List Char) : List (List Char) :=
  ((fragments sql).filter significant).map fun ts => trimRunes (tokensText ts)

/-! ## The tokens of a text -/

/-- What a token says about the text after it: a character starts no comment with it, and a comment
ends where it must. -/
def Token.Follows : Token → List Char → Prop
  | .char c, rest => ¬ (c = '-' ∧ rest.head? = some '-') ∧ ¬ (c = '/' ∧ rest.head? = some '*')
  | .quoted text, _ => ∃ q s, text = q :: s ∧ (q = '\'' ∨ q = '"')
  | .lineComment body, rest => EndsAt ['\n'] body ∨ afterFirst ['\n'] body = none ∧ rest = []
  | .blockComment body, rest => EndsAt ['*', '/'] body ∨ afterFirst ['*', '/'] body = none ∧ rest = []

/-- Tokens as they are read. -/
def Lexed : List Token → Prop
  | [] => True
  | t :: ts => t.Follows (tokensText ts) ∧ Lexed ts

theorem tokensText_cons (t : Token) (ts : List Token) :
    tokensText (t :: ts) = t.text ++ tokensText ts := flatMap_cons

theorem Token.Follows.of_prefix {t : Token} {rest rest' : List Char} (h : t.Follows rest)
    (hpre : rest' <+: rest) : t.Follows rest' := by
  have hnil : rest = [] → rest' = [] := fun hr => prefix_nil.1 (hr ▸ hpre)
  have hhead : ∀ {c : Char}, rest'.head? = some c → rest.head? = some c := by
    intro c hc
    obtain ⟨s, hs⟩ := hpre
    obtain ⟨u, rfl⟩ := List.head?_eq_some_iff.1 hc
    rw [← hs]
    rfl
  cases t with
  | char c => exact ⟨fun hc => h.1 ⟨hc.1, hhead hc.2⟩, fun hc => h.2 ⟨hc.1, hhead hc.2⟩⟩
  | quoted text => exact h
  | lineComment | blockComment => exact h.imp_right fun hopen => ⟨hopen.1, hnil hopen.2⟩

theorem lineEnd_spec (s : List Char) : (lineEnd s).1 ++ (lineEnd s).2 = s ∧
    (EndsAt ['\n'] (lineEnd s).1 ∨ afterFirst ['\n'] (lineEnd s).1 = none ∧ (lineEnd s).2 = []) := by
  fun_induction lineEnd s with
  | case1 => exact ⟨rfl, .inr ⟨rfl, rfl⟩⟩
  | case2 s => exact ⟨rfl, .inl fun rest => by simp [afterFirst, List.isPrefixOf]⟩
  | case3 c s h ih =>
    obtain ⟨htext, hends⟩ := ih
    have hne : ¬ '\n' = c := fun heq => h heq.symm
    have hskip : ∀ t : List Char, afterFirst ['\n'] (c :: t) = afterFirst ['\n'] t := fun t => by
      rw [afterFirst, if_neg (by simp [List.isPrefixOf, hne])]
    refine ⟨by rw [cons_append, htext], hends.imp (fun hend rest => ?_) fun hopen => ?_⟩
    · rw [cons_append, hskip, hend rest]
    · exact ⟨by rw [hskip, hopen.1], hopen.2⟩

theorem blockEnd_spec (s : List Char) : (blockEnd s).1 ++ (blockEnd s).2 = s ∧
    (EndsAt ['*', '/'] (blockEnd s).1 ∨
      afterFirst ['*', '/'] (blockEnd s).1 = none ∧ (blockEnd s).2 = []) := by
  fun_induction blockEnd s with
  | case1 => exact ⟨rfl, .inr ⟨rfl, rfl⟩⟩
  | case2 c => exact ⟨rfl, .inr ⟨by simp [afterFirst, List.isPrefixOf], rfl⟩⟩
  | case3 c d s h =>
    obtain ⟨rfl, rfl⟩ := h
    exact ⟨rfl, .inl fun rest => by simp [afterFirst, List.isPrefixOf]⟩
  | case4 c d s h ih =>
    obtain ⟨htext, hends⟩ := ih
    -- The rest of the comment starts with `d`, so the pattern is not found at `c`.
    have hd : ∃ t, (blockEnd (d :: s)).1 = d :: t := by
      rcases s with _ | ⟨e, s⟩
      · exact ⟨[], rfl⟩
      · rw [blockEnd]
        split
        · exact ⟨[e], rfl⟩
        · exact ⟨_, rfl⟩
    obtain ⟨t, ht⟩ := hd
    have hskip (u : List Char) :
        afterFirst ['*', '/'] (c :: d :: u) = afterFirst ['*', '/'] (d :: u) := by
      rw [afterFirst, if_neg]
      intro hp
      obtain ⟨hc, htail⟩ := cons_prefix_cons.1 (List.isPrefixOf_iff_prefix.1 hp)
      exact h ⟨hc.symm, (cons_prefix_cons.1 htail).1.symm⟩
    refine ⟨by rw [cons_append, htext], hends.imp (fun hend rest => ?_) fun hopen => ?_⟩
    · have := hend rest
      rw [ht] at this ⊢
      exact (hskip _).trans this
    · rw [ht] at hopen ⊢
      exact ⟨(hskip _).trans hopen.1, hopen.2⟩

theorem quoteEnd_append (q : Char) (s : List Char) : (quoteEnd q s).1 ++ (quoteEnd q s).2 = s := by
  fun_induction quoteEnd q s with
  | case1 | case2 | case4 => rfl
  | case3 s ih => rw [cons_append, cons_append, ih]
  | case5 c d s h ih => rw [cons_append, ih]

theorem readToken_spec (c : Char) (s : List Char) :
    (readToken c s).1.text ++ (readToken c s).2 = c :: s ∧
      (readToken c s).1.Follows (readToken c s).2 := by
  rw [readToken]
  split
  · rename_i hline
    obtain ⟨rfl, hhead⟩ := hline
    obtain ⟨s, rfl⟩ : ∃ t, s = '-' :: t := List.head?_eq_some_iff.1 hhead
    obtain ⟨htext, hends⟩ := lineEnd_spec s
    exact ⟨congrArg (fun t => '-' :: '-' :: t) htext, hends⟩
  split
  · rename_i hblock
    obtain ⟨rfl, hhead⟩ := hblock
    obtain ⟨s, rfl⟩ : ∃ t, s = '*' :: t := List.head?_eq_some_iff.1 hhead
    obtain ⟨htext, hends⟩ := blockEnd_spec s
    exact ⟨congrArg (fun t => '/' :: '*' :: t) htext, hends⟩
  split
  · exact ⟨congrArg (c :: ·) (quoteEnd_append c s), c, _, rfl, ‹_›⟩
  · exact ⟨rfl, ‹_›, ‹_›⟩

theorem length_readToken_le (c : Char) (s : List Char) : (readToken c s).2.length ≤ s.length := by
  obtain ⟨htext, hfollows⟩ := readToken_spec c s
  have hlen := congrArg List.length htext
  have hpos : 0 < (readToken c s).1.text.length := by
    cases htoken : (readToken c s).1 with
    | quoted text =>
      rw [htoken] at hfollows
      obtain ⟨q, t, rfl, -⟩ := hfollows
      exact Nat.succ_pos _
    | _ => exact Nat.succ_pos _
  rw [length_append, length_cons] at hlen
  omega

variable {n : ℕ} {s : List Char} {ts : List Token}

theorem readTokens_spec (h : s.length ≤ n) :
    tokensText (readTokens n s) = s ∧ Lexed (readTokens n s) := by
  induction n generalizing s with
  | zero =>
    rw [eq_nil_of_length_eq_zero (Nat.le_zero.1 h)]
    exact ⟨rfl, trivial⟩
  | succ n ih =>
    rcases s with _ | ⟨c, s⟩
    · exact ⟨rfl, trivial⟩
    · obtain ⟨htext, hfollows⟩ := readToken_spec c s
      obtain ⟨hrest, hlexed⟩ := ih ((length_readToken_le c s).trans (Nat.le_of_succ_le_succ h))
      rw [readTokens, tokensText_cons, hrest]
      exact ⟨htext, by rwa [hrest], hlexed⟩

theorem splitOn_cons (t x : Token) (ts : List Token) :
    (t :: ts).splitOn x = if t = x then [] :: ts.splitOn x else (ts.splitOn x).modifyHead (t :: ·) := by
  rw [List.splitOn, splitOnP_cons_eq_if_modifyHead, ← List.splitOn]
  simp only [beq_iff_eq]

/-- The parts of a text between semicolons are read the same way on their own. -/
theorem lexed_of_mem_splitOn (x : Token) (h : Lexed ts) :
    ∃ f fs, ts.splitOn x = f :: fs ∧ tokensText f <+: tokensText ts ∧ ∀ g ∈ f :: fs, Lexed g := by
  induction ts with
  | nil => exact ⟨[], [], rfl, prefix_rfl, by simp [Lexed]⟩
  | cons t ts ih =>
    obtain ⟨hfollows, hlexed⟩ := h
    obtain ⟨f, fs, heq, hpre, hall⟩ := ih hlexed
    rw [splitOn_cons, heq]
    split
    · exact ⟨[], f :: fs, rfl, List.nil_prefix, forall_mem_cons.2 ⟨trivial, hall⟩⟩
    · refine ⟨t :: f, fs, rfl, ?_, ?_⟩
      · rw [tokensText_cons, tokensText_cons]
        exact (prefix_append_right_inj _).2 hpre
      · obtain ⟨hf, hfs⟩ := forall_mem_cons.1 hall
        exact forall_mem_cons.2 ⟨⟨hfollows.of_prefix hpre, hf⟩, hfs⟩

theorem lexed_of_mem_fragments {sql : List Char} (h : ts ∈ fragments sql) : Lexed ts := by
  obtain ⟨f, fs, heq, -, hall⟩ := lexed_of_mem_splitOn (.char ';') (readTokens_spec (le_refl sql.length)).2
  rw [fragments, lexSQL, heq] at h
  exact hall ts h

/-! ## The scanner cuts where the lexer does -/

theorem splitLoop_nil (mode : Mode) (current : List Char) :
    splitLoop mode current [] = closeStatement current := rfl

theorem splitLoop_line (current s : List Char) :
    splitLoop .inLineComment current s = splitLoop .normal (current ++ (lineEnd s).1) (lineEnd s).2 := by
  induction s generalizing current with
  | nil => rw [lineEnd, append_nil, splitLoop_nil, splitLoop_nil]
  | cons c s ih =>
    rw [splitLoop, turn, lineEnd]
    by_cases hc : c = '\n'
    · rw [if_pos hc, if_pos hc]
    · rw [if_neg hc, if_neg hc]
      change splitLoop .inLineComment (current ++ [c]) s = _
      rw [ih, append_assoc, singleton_append]

theorem splitLoop_block (current s : List Char) :
    splitLoop .inBlockComment current s =
      splitLoop .normal (current ++ (blockEnd s).1) (blockEnd s).2 := by
  fun_induction blockEnd s generalizing current with
  | case1 => rw [append_nil, splitLoop_nil, splitLoop_nil]
  | case2 c => simp [splitLoop, turn]
  | case3 c d s h =>
    obtain ⟨rfl, rfl⟩ := h
    rfl
  | case4 c d s h ih =>
    rw [splitLoop, turn, List.head?_cons, if_neg (by simpa using h)]
    change splitLoop .inBlockComment (current ++ [c]) (d :: s) = _
    rw [ih, append_assoc, singleton_append]

/-- Both kinds of quotes. -/
theorem splitLoop_quoted {q : Char} {mode : Mode} (hmode : ∀ r next, turn mode r next = turnQuoted q mode r next)
    (current s : List Char) :
    splitLoop mode current s = splitLoop .normal (current ++ (quoteEnd q s).1) (quoteEnd q s).2 := by
  fun_induction quoteEnd q s generalizing current with
  | case1 => rw [append_nil, splitLoop_nil, splitLoop_nil]
  | case2 c =>
    rw [splitLoop_nil]
    rw [splitLoop, hmode, turnQuoted, List.head?_nil]
    by_cases hc : c = q <;> simp [hc, splitLoop_nil]
  | case3 s ih =>
    rw [splitLoop, hmode, turnQuoted, if_pos rfl, List.head?_cons, if_pos rfl]
    change splitLoop mode (current ++ [q, q]) s = _
    rw [ih, append_assoc]
    rfl
  | case4 d s hd =>
    rw [splitLoop, hmode, turnQuoted, if_pos rfl, List.head?_cons, if_neg (by simpa using hd)]
  | case5 c d s hc ih =>
    rw [splitLoop, hmode, turnQuoted, if_neg hc]
    change splitLoop mode (current ++ [c]) (d :: s) = _
    rw [ih, append_assoc, singleton_append]

/-- Outside quotes and comments the scanner reads a token and is outside again; a semicolon ends the
statement. -/
theorem splitLoop_normal (current : List Char) (c : Char) (s : List Char) :
    splitLoop .normal current (c :: s) =
      if (readToken c s).1 = .char ';' then closeStatement current ++ splitLoop .normal [] (readToken c s).2
      else splitLoop .normal (current ++ (readToken c s).1.text) (readToken c s).2 := by
  rw [splitLoop, turn, readToken]
  by_cases hline : c = '-' ∧ s.head? = some '-'
  · obtain ⟨rfl, hhead⟩ := hline
    obtain ⟨s, rfl⟩ : ∃ t, s = '-' :: t := List.head?_eq_some_iff.1 hhead
    simp only [List.head?_cons, and_self, if_true, tail_cons, reduceCtorEq, if_false]
    rw [splitLoop_line, append_assoc]
    rfl
  rw [if_neg hline, if_neg hline]
  by_cases hblock : c = '/' ∧ s.head? = some '*'
  · obtain ⟨rfl, hhead⟩ := hblock
    obtain ⟨s, rfl⟩ : ∃ t, s = '*' :: t := List.head?_eq_some_iff.1 hhead
    simp only [List.head?_cons, and_self, if_true, tail_cons, reduceCtorEq, if_false]
    rw [splitLoop_block, append_assoc]
    rfl
  rw [if_neg hblock, if_neg hblock]
  by_cases hsingle : c = '\''
  · subst hsingle
    simp only [true_or, if_true, reduceCtorEq, if_false]
    rw [splitLoop_quoted (q := '\'') (fun _ _ => rfl), append_assoc]
    rfl
  rw [if_neg hsingle]
  by_cases hdouble : c = '"'
  · subst hdouble
    simp only [or_true, if_true, reduceCtorEq, if_false]
    rw [splitLoop_quoted (q := '"') (fun _ _ => rfl), append_assoc]
    rfl
  rw [if_neg hdouble, if_neg (not_or.2 ⟨hsingle, hdouble⟩)]
  by_cases hsemi : c = ';'
  · subst hsemi
    rfl
  · rw [if_neg hsemi, if_neg (by simpa using hsemi)]
    rfl

/-- **The scanner cuts the text where the lexer does.** -/
theorem splitLoop_eq (h : s.length ≤ n) (pre : List Token) :
    splitLoop .normal (tokensText pre) s =
      (((readTokens n s).splitOn (.char ';')).modifyHead (pre ++ ·)).flatMap fun ts =>
        closeStatement (tokensText ts) := by
  induction n generalizing s pre with
  | zero =>
    rw [eq_nil_of_length_eq_zero (Nat.le_zero.1 h)]
    simp [readTokens, splitLoop_nil]
  | succ n ih =>
    rcases s with _ | ⟨c, s⟩
    · simp [readTokens, splitLoop_nil]
    · have hlen : (readToken c s).2.length ≤ n :=
        (length_readToken_le c s).trans (Nat.le_of_succ_le_succ h)
      rw [readTokens, splitLoop_normal, splitOn_cons]
      split
      · have hrest := ih hlen []
        rw [show (fun ts : List Token => [] ++ ts) = id from rfl, modifyHead_id] at hrest
        rw [modifyHead_cons, flatMap_cons, append_nil]
        exact congrArg (closeStatement (tokensText pre) ++ ·) hrest
      · have hrest := ih hlen (pre ++ [(readToken c s).1])
        rw [tokensText, flatMap_append, flatMap_singleton] at hrest
        rw [tokensText, hrest, modifyHead_modifyHead]
        simp only [append_assoc, singleton_append]
        rfl

/-! ## Comments only -/

theorem commentLoop_nil (n : ℕ) : commentLoop n [] = true := by
  cases n <;> rfl

/-- The fuel does not matter as long as it covers the text. -/
theorem commentLoop_fuel {m : ℕ} (hn : s.length ≤ n) (hm : s.length ≤ m) :
    commentLoop n s = commentLoop m s := by
  induction n generalizing m s with
  | zero =>
    rw [eq_nil_of_length_eq_zero (Nat.le_zero.1 hn), commentLoop_nil, commentLoop_nil]
  | succ n ih =>
    rcases m with _ | m
    · rw [eq_nil_of_length_eq_zero (Nat.le_zero.1 hm), commentLoop_nil, commentLoop_nil]
    have hrest : ∀ {pat rest : List Char}, pat ≠ [] → afterFirst pat s = some rest →
        commentLoop n (trimRunes rest) = commentLoop m (trimRunes rest) := by
      intro pat rest hne hafter
      have hlen := length_afterFirst_le hafter
      have hpat := length_pos_iff.2 hne
      have htrim := length_trimRunes_le rest
      exact ih (by omega) (by omega)
    rw [commentLoop, commentLoop]
    split
    · rfl
    split
    · cases hafter : afterFirst ['\n'] s with
      | none => rfl
      | some rest => exact hrest (by simp) hafter
    split
    · cases hafter : afterFirst ['*', '/'] s with
      | none => rfl
      | some rest => exact hrest (by simp) hafter
    · rfl

theorem commentOnly_eq (h : s.length ≤ n) : commentLoop n (trimRunes s) = isSQLCommentOnly s :=
  commentLoop_fuel ((length_trimRunes_le s).trans h) (length_trimRunes_le s)

theorem commentOnly_trimRunes (s : List Char) : isSQLCommentOnly (trimRunes s) = isSQLCommentOnly s := by
  rw [← commentOnly_eq (length_trimRunes_le s), trimRunes_trimRunes, isSQLCommentOnly]

variable {ws : List Char} {c : Char}

theorem commentOnly_append_spaces (s : List Char) (h : Spaces ws) :
    isSQLCommentOnly (s ++ ws) = isSQLCommentOnly s := by
  rw [isSQLCommentOnly, trimRunes_append_spaces s h]
  exact commentOnly_eq (by simp)

theorem commentOnly_spaces (h : Spaces ws) : isSQLCommentOnly ws = true :=
  commentOnly_append_spaces [] h

theorem commentOnly_space (h : isSpaceRune c = true) (s : List Char) :
    isSQLCommentOnly (c :: s) = isSQLCommentOnly s := by
  rw [isSQLCommentOnly, trimRunes_cons_space h]
  exact commentOnly_eq (by simp)

/-- A text that starts with something else is not comments only. -/
theorem commentOnly_other (h : isSpaceRune c = false)
    (hline : ¬ (c = '-' ∧ s.head? = some '-')) (hblock : ¬ (c = '/' ∧ s.head? = some '*')) :
    isSQLCommentOnly (c :: s) = false := by
  have hhead : (s.rdropWhile isSpaceRune).head? = none ∨ (s.rdropWhile isSpaceRune).head? = s.head? := by
    obtain ⟨ws, -, heq⟩ := exists_spaces s
    cases hr : s.rdropWhile isSpaceRune with
    | nil => exact .inl rfl
    | cons d t =>
      rw [hr] at heq
      rw [heq]
      exact .inr rfl
  have hpair : ∀ {x y : Char}, ¬ (c = x ∧ s.head? = some y) →
      [x, y].isPrefixOf (c :: s.rdropWhile isSpaceRune) = false := by
    intro x y hne
    cases hr : s.rdropWhile isSpaceRune with
    | nil => simp [List.isPrefixOf]
    | cons d t =>
      rw [hr, List.head?_cons] at hhead
      have hd : s.head? = some d := (hhead.resolve_left (by simp)).symm
      refine Bool.eq_false_iff.2 fun hp => hne ?_
      obtain ⟨hx, htail⟩ := cons_prefix_cons.1 (List.isPrefixOf_iff_prefix.1 hp)
      exact ⟨hx.symm, by rw [hd, (cons_prefix_cons.1 htail).1]⟩
  rw [isSQLCommentOnly, trimRunes_cons h, length_cons, commentLoop, if_neg (by simp), hpair hline,
    if_neg (by simp), hpair hblock, if_neg (by simp)]

/-- A line comment is dropped. -/
theorem commentOnly_line (s : List Char) :
    isSQLCommentOnly ('-' :: '-' :: s) = (afterFirst ['\n'] s).elim true isSQLCommentOnly := by
  have hafter : ∀ t : List Char, afterFirst ['\n'] ('-' :: '-' :: t) = afterFirst ['\n'] t := fun t => by
    rw [afterFirst, if_neg (by simp [List.isPrefixOf]), afterFirst, if_neg (by simp [List.isPrefixOf])]
  obtain ⟨ws, hws, heq⟩ := exists_spaces s
  rw [isSQLCommentOnly, trimRunes_cons (by decide), rdropWhile_cons (by decide), length_cons,
    commentLoop, if_neg (by simp), if_pos (by simp [List.isPrefixOf]), hafter]
  cases hr : afterFirst ['\n'] (s.rdropWhile isSpaceRune) with
  | some rest =>
    have hs := afterFirst_append hr ws
    rw [← heq] at hs
    have hlen := length_afterFirst_le hr
    have hpre := (List.rdropWhile_prefix isSpaceRune s).length_le
    rw [hs, Option.elim_some, commentOnly_append_spaces rest hws]
    exact commentOnly_eq (by simp only [length_cons] at hlen ⊢; omega)
  | none =>
    -- The line ends in the white space, if at all.
    have hs := afterFirst_singleton_append hr ws
    rw [← heq] at hs
    rw [hs]
    cases hw : afterFirst ['\n'] ws with
    | none => rfl
    | some rest =>
      exact (commentOnly_spaces fun c hc => hws c ((afterFirst_suffix hw).subset hc)).symm

/-- A block comment is dropped, up to the end that is found. -/
theorem commentOnly_block (s : List Char) :
    isSQLCommentOnly ('/' :: '*' :: s) =
      (afterFirst ['*', '/'] ('/' :: '*' :: s)).elim true isSQLCommentOnly := by
  obtain ⟨ws, hws, heq⟩ := exists_spaces s
  set t := s.rdropWhile isSpaceRune with ht
  have happend : '/' :: '*' :: s = '/' :: '*' :: t ++ ws := by rw [heq, cons_append, cons_append]
  have hpat : ∀ c ∈ ['*', '/'], isSpaceRune c = false :=
    forall_mem_cons.2 ⟨by decide, forall_mem_singleton.2 (by decide)⟩
  rw [isSQLCommentOnly, trimRunes_cons (by decide), rdropWhile_cons (by decide), ← ht, length_cons,
    commentLoop, if_neg (by simp), if_neg (by simp [List.isPrefixOf]),
    if_pos (by simp [List.isPrefixOf]), happend, afterFirst_append_spaces hpat (by simp) _ hws]
  cases hr : afterFirst ['*', '/'] ('/' :: '*' :: t) with
  | none => rfl
  | some rest =>
    have hlen := length_afterFirst_le hr
    have hpre := (List.rdropWhile_prefix isSpaceRune s).length_le
    rw [← ht] at hpre
    rw [Option.map_some, Option.elim_some, commentOnly_append_spaces rest hws]
    refine commentOnly_eq ?_
    simp only [length_cons, length_nil] at hlen ⊢
    omega

/-! ## The statements -/

theorem significant_cons (t : Token) (ts : List Token) :
    significant (t :: ts) = ((t.outside.any fun c => !isSpaceRune c) || significant ts) := any_cons

/-- A part that starts with a token outside comments is significant, and it is not comments only. -/
theorem commentOnly_quoted {text : List Char} (h : ∃ q s, text = q :: s ∧ (q = '\'' ∨ q = '"'))
    (ts : List Token) : isSQLCommentOnly (tokensText (.quoted text :: ts)) = false ∧
      significant (.quoted text :: ts) = true := by
  obtain ⟨q, s, rfl, hq⟩ := h
  have hspace : isSpaceRune q = false := by
    rcases hq with rfl | rfl <;> decide
  refine ⟨commentOnly_other hspace (fun hc => ?_) (fun hc => ?_), ?_⟩
  · rcases hq with rfl | rfl <;> exact absurd hc.1 (by decide)
  · rcases hq with rfl | rfl <;> exact absurd hc.1 (by decide)
  · simp [significant_cons, Token.outside, hspace]

theorem commentOnly_char (h : (Token.char c).Follows (tokensText ts)) :
    if isSpaceRune c = true then
      isSQLCommentOnly (tokensText (.char c :: ts)) = isSQLCommentOnly (tokensText ts) ∧
        significant (.char c :: ts) = significant ts
    else isSQLCommentOnly (tokensText (.char c :: ts)) = false ∧ significant (.char c :: ts) = true := by
  cases hc : isSpaceRune c with
  | true =>
    exact ⟨commentOnly_space hc _, by simp [significant_cons, Token.outside, hc]⟩
  | false =>
    exact ⟨commentOnly_other hc h.1 h.2, by simp [significant_cons, Token.outside, hc]⟩

theorem commentOnly_lineComment {body : List Char}
    (h : (Token.lineComment body).Follows (tokensText ts)) :
    isSQLCommentOnly (tokensText (.lineComment body :: ts)) = isSQLCommentOnly (tokensText ts) := by
  rw [tokensText_cons]
  change isSQLCommentOnly ('-' :: '-' :: (body ++ tokensText ts)) = _
  rw [commentOnly_line]
  rcases h with hends | ⟨hopen, hnil⟩
  · rw [hends, Option.elim_some]
  · rw [hnil, append_nil, hopen]
    rfl

/-- Some block comment before the first token outside comments and white space opens with `/*/`. -/
def opensSlash : List Token → Bool
  | [] => false
  | .char c :: ts => isSpaceRune c && opensSlash ts
  | .quoted _ :: _ => false
  | .lineComment _ :: ts => opensSlash ts
  | .blockComment body :: ts => body.head? = some '/' || opensSlash ts

/-- The end of a block comment that does not open with `/*/` is found. -/
theorem afterFirst_opener {body rest : List Char} (h : body = [] → rest = [])
    (hopen : body.head? ≠ some '/') :
    afterFirst ['*', '/'] ('/' :: '*' :: (body ++ rest)) = afterFirst ['*', '/'] (body ++ rest) := by
  rw [afterFirst, if_neg (by simp [List.isPrefixOf])]
  rcases body with _ | ⟨c, body⟩
  · rw [h rfl]
    rfl
  · have hne : ¬ '/' = c := fun heq => hopen (by rw [heq, List.head?_cons])
    rw [afterFirst, if_neg (by simp [List.isPrefixOf, hne])]

/-- **What is found to be comments only**: the parts that are not significant, if no comment that they
begin with opens with `/*/`. -/
theorem commentOnly_tokens (h : Lexed ts) (hopen : opensSlash ts = false) :
    isSQLCommentOnly (tokensText ts) = !significant ts := by
  induction ts with
  | nil => rfl
  | cons t ts ih =>
    obtain ⟨hfollows, hlexed⟩ := h
    cases t with
    | char c =>
      have hchar := commentOnly_char hfollows
      split at hchar
      · rename_i hc
        rw [hchar.1, hchar.2]
        exact ih hlexed (by simpa [opensSlash, hc] using hopen)
      · rw [hchar.1, hchar.2, Bool.not_true]
    | quoted text =>
      obtain ⟨hfalse, hsig⟩ := commentOnly_quoted hfollows ts
      rw [hfalse, hsig, Bool.not_true]
    | lineComment body =>
      rw [commentOnly_lineComment hfollows, significant_cons]
      exact ih hlexed hopen
    | blockComment body =>
      have hnil : body = [] → tokensText ts = [] := by
        rintro rfl
        rcases hfollows with hends | ⟨-, hnil⟩
        · exact absurd (length_afterFirst_le (hends [])) (by simp)
        · exact hnil
      simp only [opensSlash, Bool.or_eq_false_iff, decide_eq_false_iff_not] at hopen
      rw [significant_cons, show (Token.blockComment body).outside = [] from rfl, any_nil,
        Bool.false_or, tokensText_cons, ← ih hlexed hopen.2]
      change isSQLCommentOnly ('/' :: '*' :: (body ++ tokensText ts)) = _
      rw [commentOnly_block, afterFirst_opener hnil hopen.1]
      rcases hfollows with hends | ⟨hnone, hrest⟩
      · rw [hends, Option.elim_some]
      · rw [hrest, append_nil, hnone]
        rfl

theorem splitSQLStatements_eq (sql : List Char) :
    splitSQLStatements sql =
      ((fragments sql).map fun ts => trimRunes (tokensText ts)).filter fun s => !isSQLCommentOnly s := by
  have hclose : ∀ ts : List Token, closeStatement (tokensText ts) =
      [trimRunes (tokensText ts)].filter fun s => !isSQLCommentOnly s := by
    intro ts
    rw [closeStatement]
    by_cases hnil : trimRunes (tokensText ts) = []
    · rw [hnil]
      rfl
    · cases hcom : isSQLCommentOnly (trimRunes (tokensText ts)) <;> simp [hnil, hcom]
  have hloop := splitLoop_eq (le_refl sql.length) []
  rw [show (fun ts : List Token => [] ++ ts) = id from rfl, modifyHead_id] at hloop
  rw [splitSQLStatements]
  refine hloop.trans ?_
  simp only [id_eq, hclose, fragments, lexSQL]
  induction List.splitOn (Token.char ';') (readTokens sql.length sql) with
  | nil => rfl
  | cons ts fs ih => rw [flatMap_cons, ih, map_cons, ← filter_append, singleton_append]

/-- **SQL files run completely**: only parts between the semicolons are returned, in order and whole,
and they are the statements if no part begins with a comment that opens with `/*/`. -/
theorem splitSQLStatements_eq_statements (sql : List Char) :
    (splitSQLStatements sql).Sublist
        ((fragments sql).map fun ts => trimRunes (tokensText ts)) ∧
      ((∀ ts ∈ fragments sql, opensSlash ts = false) →
        splitSQLStatements sql = statements sql) := by
  rw [splitSQLStatements_eq]
  refine ⟨filter_sublist, fun h => ?_⟩
  rw [statements, filter_map]
  congr 1
  refine filter_congr fun ts hts => ?_
  rw [Function.comp_apply, commentOnly_trimRunes,
    commentOnly_tokens (lexed_of_mem_fragments hts) (h ts hts), Bool.not_not]

/-- A seed file with comments before, in and after its statements. -/
theorem splitSQLStatements_eq_statements_seed :
    splitSQLStatements
        "/* a; */ INSERT INTO t VALUES ('x;'); -- end\n; DELETE /*/ x */ FROM t".toList =
      ["/* a; */ INSERT INTO t VALUES ('x;')".toList, "DELETE /*/ x */ FROM t".toList] :=
  ((splitSQLStatements_eq_statements _).2 (by decide +kernel)).trans (by decide +kernel)

/-- **A statement after the comment `/*/ -- */` is skipped**: the rest of the comment passes for a
line comment. -/
theorem splitSQLStatements_skips :
    splitSQLStatements "/*/ -- */ DELETE FROM t;".toList = [] ∧
      statements "/*/ -- */ DELETE FROM t;".toList = ["/*/ -- */ DELETE FROM t".toList] := by
  decide +kernel

end Gombit.Migrations
