import Mathlib.Data.List.DropRight

/-!
# Scanning text

Texts as lists of characters: white space at their ends (`trimRunes`), and what follows the first
occurrence of a pattern (`afterFirst`).
-/

namespace Gombit

open List

/-- `unicode.IsSpace`. -/
def isSpaceRune (c : Char) : Bool :=
  (9 ≤ c.toNat && c.toNat ≤ 13) || c.toNat = 32 || c.toNat = 0x85 || c.toNat = 0xa0 ||
    c.toNat = 0x1680 || (0x2000 ≤ c.toNat && c.toNat ≤ 0x200a) || c.toNat = 0x2028 ||
    c.toNat = 0x2029 || c.toNat = 0x202f || c.toNat = 0x205f || c.toNat = 0x3000

/-- White space. -/
def Spaces (s : List Char) : Prop := ∀ c ∈ s, isSpaceRune c = true

/-- `strings.TrimSpace`. -/
def trimRunes (s : List Char) : List Char := (s.dropWhile isSpaceRune).rdropWhile isSpaceRune

/-! ## White space at the ends -/

variable {c : Char}

theorem trimRunes_cons_space (h : isSpaceRune c = true) (s : List Char) :
    trimRunes (c :: s) = trimRunes s := by
  rw [trimRunes, dropWhile_cons_of_pos h, trimRunes]

theorem rdropWhile_append (a s : List Char) : (a ++ s).rdropWhile isSpaceRune =
    if s.rdropWhile isSpaceRune = [] then a.rdropWhile isSpaceRune
    else a ++ s.rdropWhile isSpaceRune := by
  induction s using List.reverseRecOn with
  | nil => simp
  | append_singleton s d ih =>
    rw [← append_assoc, rdropWhile_concat, rdropWhile_concat]
    split
    · exact ih
    · rw [if_neg (by simp), append_assoc]

theorem rdropWhile_cons (h : isSpaceRune c = false) (s : List Char) :
    (c :: s).rdropWhile isSpaceRune = c :: s.rdropWhile isSpaceRune := by
  rw [← singleton_append, rdropWhile_append]
  split
  · rename_i hs
    rw [hs, rdropWhile_singleton, h, if_neg Bool.false_ne_true]
  · rfl

theorem trimRunes_cons (h : isSpaceRune c = false) (s : List Char) :
    trimRunes (c :: s) = c :: s.rdropWhile isSpaceRune := by
  rw [trimRunes, dropWhile_cons_of_neg (by simp [h]), rdropWhile_cons h]

variable {ws : List Char}

theorem rdropWhile_append_spaces (s : List Char) (h : Spaces ws) :
    (s ++ ws).rdropWhile isSpaceRune = s.rdropWhile isSpaceRune := by
  rw [rdropWhile_append, if_pos (rdropWhile_eq_nil_iff.2 h)]

theorem exists_spaces (s : List Char) : ∃ ws, Spaces ws ∧ s = s.rdropWhile isSpaceRune ++ ws :=
  ⟨_, fun _ => mem_rtakeWhile_imp, rdropWhile_append_rtakeWhile.symm⟩

variable {s : List Char}

/-- Trimming keeps what is not white space. -/
theorem mem_trimRunes (hc : isSpaceRune c = false) (h : c ∈ s) : c ∈ trimRunes s := by
  obtain ⟨ws, hws, heq⟩ := exists_spaces (s.dropWhile isSpaceRune)
  rw [← takeWhile_append_dropWhile (p := isSpaceRune) (l := s), heq] at h
  simp only [mem_append] at h
  rcases h with h | h | h
  · simp [mem_takeWhile_imp h] at hc
  · exact h
  · simp [hws c h] at hc

theorem trimRunes_append_spaces (s : List Char) (h : Spaces ws) :
    trimRunes (s ++ ws) = trimRunes s := by
  induction s with
  | nil =>
    have hall : ws.dropWhile isSpaceRune = [] := dropWhile_eq_nil_iff.2 h
    rw [nil_append, trimRunes, hall]
    rfl
  | cons c s ih =>
    rw [cons_append]
    cases hc : isSpaceRune c with
    | true => rw [trimRunes_cons_space hc, trimRunes_cons_space hc, ih]
    | false => rw [trimRunes_cons hc, trimRunes_cons hc, rdropWhile_append_spaces s h]

theorem trimRunes_trimRunes (s : List Char) : trimRunes (trimRunes s) = trimRunes s := by
  induction s with
  | nil => rfl
  | cons c s ih =>
    cases hc : isSpaceRune c with
    | true => rw [trimRunes_cons_space hc, ih]
    | false =>
      rw [trimRunes_cons hc, trimRunes_cons hc, rdropWhile_idempotent]

/-- A text that starts and ends with something else than white space. -/
theorem trimRunes_of_ends {d : Char} (hc : isSpaceRune c = false) (hd : isSpaceRune d = false)
    (s : List Char) : trimRunes (c :: s ++ [d]) = c :: s ++ [d] := by
  rw [cons_append, trimRunes_cons hc, rdropWhile_concat_neg _ _ _ (by rw [hd]; decide)]

theorem length_trimRunes_le (s : List Char) : (trimRunes s).length ≤ s.length :=
  (List.rdropWhile_prefix _ _).length_le.trans (List.dropWhile_suffix _).length_le

/-! ## Patterns -/

/-- What follows the first occurrence of a pattern. -/
def afterFirst (pat : List Char) : List Char → Option (List Char)
  | [] => none
  | c :: s => if pat.isPrefixOf (c :: s) then some ((c :: s).drop pat.length) else afterFirst pat s

variable {pat rest : List Char}

theorem length_afterFirst_le (h : afterFirst pat s = some rest) :
    rest.length + pat.length ≤ s.length := by
  induction s with
  | nil => cases h
  | cons c s ih =>
    rw [afterFirst] at h
    split at h
    · rename_i hpre
      cases h
      have := (List.isPrefixOf_iff_prefix.1 hpre).length_le
      rw [length_drop]
      omega
    · have := ih h
      rw [length_cons]
      omega

/-- A text that ends with the first occurrence of a pattern, whatever follows. -/
def EndsAt (pat body : List Char) : Prop := ∀ rest, afterFirst pat (body ++ rest) = some rest

theorem afterFirst_append (h : afterFirst pat s = some rest) (t : List Char) :
    afterFirst pat (s ++ t) = some (rest ++ t) := by
  induction s with
  | nil => cases h
  | cons c s ih =>
    rw [afterFirst] at h
    rw [cons_append, afterFirst, ← cons_append]
    split at h
    · rename_i hpre
      cases h
      have hpre := List.isPrefixOf_iff_prefix.1 hpre
      rw [if_pos (List.isPrefixOf_iff_prefix.2 (hpre.trans (prefix_append (c :: s) t))),
        drop_append_of_le_length hpre.length_le]
    · rename_i hpre
      have hlen : pat.length ≤ (c :: s).length := by
        have := length_afterFirst_le h
        rw [length_cons]
        omega
      rw [if_neg, ih h]
      intro hp
      exact hpre (List.isPrefixOf_iff_prefix.2 (prefix_of_prefix_length_le
        (List.isPrefixOf_iff_prefix.1 hp) (prefix_append (c :: s) t) hlen))

theorem afterFirst_singleton_append {x : Char} (h : afterFirst [x] s = none) (t : List Char) :
    afterFirst [x] (s ++ t) = afterFirst [x] t := by
  induction s with
  | nil => rfl
  | cons c s ih =>
    rw [afterFirst] at h
    split at h
    · cases h
    · rename_i hpre
      rw [cons_append, afterFirst, if_neg (by simpa [List.isPrefixOf] using hpre), ih h]

theorem afterFirst_suffix (h : afterFirst pat s = some rest) : rest <:+ s := by
  induction s with
  | nil => cases h
  | cons c s ih =>
    rw [afterFirst] at h
    split at h
    · cases h
      exact List.drop_suffix _ _
    · exact (ih h).trans (suffix_cons c s)

/-- White space at the end of a text holds no part of a pattern without white space. -/
theorem afterFirst_append_spaces (hpat : ∀ c ∈ pat, isSpaceRune c = false) (hne : pat ≠ [])
    (s : List Char) (h : Spaces ws) :
    afterFirst pat (s ++ ws) = (afterFirst pat s).map (· ++ ws) := by
  have hnone : ∀ ws, Spaces ws → afterFirst pat ws = none := by
    intro ws hws
    induction ws with
    | nil => rfl
    | cons w ws ih =>
      rw [afterFirst, if_neg, ih fun c hc => hws c (mem_cons_of_mem w hc)]
      intro hpre
      obtain ⟨p, pat, rfl⟩ := exists_cons_of_ne_nil hne
      obtain ⟨t, ht⟩ := List.isPrefixOf_iff_prefix.1 hpre
      have hp := hpat p mem_cons_self
      rw [(List.cons.inj ht).1, hws w mem_cons_self] at hp
      cases hp
  induction s with
  | nil => exact hnone ws h
  | cons c s ih =>
    rw [cons_append, afterFirst, afterFirst, ih, ← cons_append]
    by_cases hpre : pat <+: c :: s
    · rw [if_pos (List.isPrefixOf_iff_prefix.2 hpre),
        if_pos (List.isPrefixOf_iff_prefix.2 (hpre.trans (prefix_append (c :: s) ws))),
        drop_append_of_le_length hpre.length_le]
      rfl
    · rw [if_neg fun hp => hpre (List.isPrefixOf_iff_prefix.1 hp), if_neg]
      intro hp
      have hp := List.isPrefixOf_iff_prefix.1 hp
      -- A pattern that reaches into the white space would hold some.
      rcases List.prefix_or_prefix_of_prefix hp (prefix_append (c :: s) ws) with hp' | ⟨t, rfl⟩
      · exact hpre hp'
      · have ht := (prefix_append_right_inj _).1 hp
        rcases t with _ | ⟨w, t⟩
        · exact hpre (by simp)
        · have hw := hpat w (mem_append_right _ mem_cons_self)
          rw [h w (ht.subset mem_cons_self)] at hw
          cases hw

/-! ## Up to a pattern -/

/-- A text up to the first occurrence of a pattern. -/
def upTo (pat : List Char) : List Char → List Char
  | [] => []
  | c :: s => if pat.isPrefixOf (c :: s) then [] else c :: upTo pat s

theorem upTo_append_of_prefix (hne : pat ≠ []) (s : List Char) : upTo pat (pat ++ s) = [] := by
  obtain ⟨c, pat, rfl⟩ := exists_cons_of_ne_nil hne
  rw [cons_append, upTo, ← cons_append,
    if_pos (List.isPrefixOf_iff_prefix.2 (prefix_append (c :: pat) s))]

theorem upTo_of_not_infix (h : ¬ pat <:+: s) : upTo pat s = s := by
  induction s with
  | nil => rfl
  | cons c s ih =>
    rw [upTo, if_neg fun hp => h (List.isPrefixOf_iff_prefix.1 hp).isInfix,
      ih fun hs => h (hs.trans (suffix_cons c s).isInfix)]

/-! ## Parts of a text -/

theorem mem_intercalate {α : Type*} {y : α} {sep : List α} {vs : List (List α)} (h : y ∈ sep.intercalate vs) :
    y ∈ sep ∨ ∃ v ∈ vs, y ∈ v := by
  induction vs with
  | nil => cases h
  | cons v vs ih =>
    cases vs with
    | nil =>
      rw [intercalate_singleton] at h
      exact .inr ⟨v, mem_cons_self, h⟩
    | cons w vs =>
      rw [intercalate_cons_cons, mem_append, mem_append] at h
      rcases h with (h | h) | h
      · exact .inr ⟨v, mem_cons_self, h⟩
      · exact .inl h
      · exact (ih h).imp_right fun ⟨t, ht, hy⟩ => ⟨t, mem_cons_of_mem v ht, hy⟩

end Gombit
