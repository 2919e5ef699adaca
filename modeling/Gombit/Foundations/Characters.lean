import Gombit.Foundations.Strays

/-!
# Strings cut into characters

A string is cut into the bytes of its characters (`characters`), a byte that is part of none being a
piece of its own. The pieces make up the string (`flatten_characters`), and those of a valid string are
characters (`spells_of_valid`).

* `characters_append`: a valid string is cut the same way whatever follows it.
* `prefix_append_char`: a valid string that starts a text does not end inside the text's last character.
* `prefix_trimRight`: one that does not end with white space is not cut by trimming the text's end.
-/

namespace Gombit

open List

/-- The bytes of the characters of a string, one character after the other. -/
def characters : Bytes → List Bytes
  | [] => []
  | a :: rest =>
    if a < 0x80 then [a] :: characters rest
    else
      match rest with
      | [] => [[a]]
      | b :: rest =>
        if (rune2 a b).isSome then [a, b] :: characters rest
        else
          match rest with
          | [] => [a] :: characters [b]
          | c :: rest =>
            if (rune3 a b c).isSome then [a, b, c] :: characters rest
            else
              match rest with
              | [] => [a] :: characters [b, c]
              | d :: rest =>
                if (rune4 a b c d).isSome then [a, b, c, d] :: characters rest
                else [a] :: characters (b :: c :: d :: rest)

theorem characters_cons_ascii {a : UInt8} (h : a < 0x80) (s : Bytes) :
    characters (a :: s) = [a] :: characters s := by
  conv_lhs => unfold characters
  exact if_pos h

theorem characters_cons {a : UInt8} (h : ¬ a < 0x80) (s : Bytes) :
    characters (a :: s) = (a :: s.take (tailLen a s)) :: characters (s.drop (tailLen a s)) := by
  conv_lhs => unfold characters
  rw [if_neg h]
  rcases s with _ | ⟨b, _ | ⟨c, _ | ⟨d, s⟩⟩⟩
  · simp [characters]
  · by_cases h₂ : (rune2 a b).isSome <;> simp [tailLen, h₂]
  · by_cases h₂ : (rune2 a b).isSome
    · simp [tailLen, h₂]
    · by_cases h₃ : (rune3 a b c).isSome <;> simp [tailLen, h₂, h₃]
  · by_cases h₂ : (rune2 a b).isSome
    · simp [tailLen, h₂]
    · by_cases h₃ : (rune3 a b c).isSome
      · simp [tailLen, h₂, h₃]
      · by_cases h₄ : (rune4 a b c d).isSome <;> simp [tailLen, h₂, h₃, h₄]

variable {c : Bytes} {r : ℕ}

theorem Spells.runes_eq (h : Spells c r) : runes c = [some r] := by
  simpa [runes] using h []

theorem Spells.ne_nil (h : Spells c r) : c ≠ [] := by
  rintro rfl
  simpa [runes] using h []

/-- **Induction on the characters of a string**, and on the bytes that are part of none. -/
theorem characters_induction {P : Bytes → Prop} (hnil : P [])
    (hchar : ∀ c r, Spells c r → (∀ t, characters (c ++ t) = c :: characters t) →
      ∀ s, P s → P (c ++ s))
    (hstray : ∀ a s, runes (a :: s) = none :: runes s → runes [a] = [none] →
      characters (a :: s) = [a] :: characters s → P s → P (a :: s)) (s : Bytes) : P s := by
  induction hlen : s.length using Nat.strong_induction_on generalizing s with
  | _ n ih =>
    cases s with
    | nil => exact hnil
    | cons a s =>
      have hs : P s := ih s.length (by simp [← hlen]) s rfl
      by_cases h : a < 0x80
      · exact hchar [a] _ (spells_ascii h) (characters_cons_ascii h) s hs
      · by_cases hzero : tailLen a s = 0
        · refine hstray a s (runes_cons_stray h hzero) (runes_cons_stray h rfl) ?_ hs
          rw [characters_cons h, hzero, take_zero, drop_zero]
        · obtain ⟨r, -, hr⟩ := exists_spells hzero
          have hdrop : ∀ t, characters (a :: s.take (tailLen a s) ++ t) =
              (a :: s.take (tailLen a s)) :: characters t := by
            intro t
            have hle := (tailLen_spec hzero).2.1
            rw [cons_append, characters_cons h, tailLen_take hzero,
              take_left' (by rw [length_take, min_eq_left hle]),
              drop_left' (by rw [length_take, min_eq_left hle])]
          have hrest := hchar _ r hr hdrop _ (ih _ (by simp [← hlen]) (s.drop (tailLen a s)) rfl)
          rwa [cons_append, take_append_drop] at hrest

/-- **The characters make up the string.** -/
theorem flatten_characters (s : Bytes) : (characters s).flatten = s := by
  induction s using characters_induction with
  | hnil => rfl
  | hchar c r _ hfirst s ih => rw [hfirst, flatten_cons, ih]
  | hstray a s _ _ hfirst ih => rw [hfirst, flatten_cons, ih, singleton_append]

theorem runes_eq_flatMap (s : Bytes) : runes s = (characters s).flatMap runes := by
  induction s using characters_induction with
  | hnil => rfl
  | hchar c r hc hfirst s ih => rw [hfirst, hc, flatMap_cons, ← ih, hc.runes_eq, singleton_append]
  | hstray a s hrunes hone hfirst ih =>
    rw [hfirst, hrunes, flatMap_cons, ← ih, hone, singleton_append]

variable {s : Bytes}

theorem validUTF8_of_runes {t : Bytes} (h : ∀ r ∈ runes t, r ∈ runes s) (hs : validUTF8 s = true) :
    validUTF8 t = true :=
  all_eq_true.2 fun r hr => all_eq_true.1 hs r (h r hr)

theorem validUTF8_append_of_spells (hc : Spells c r) (s : Bytes) :
    validUTF8 (c ++ s) = validUTF8 s := by
  rw [validUTF8, hc, all_cons]
  rfl

/-- The pieces of a valid string are characters. -/
theorem spells_of_valid (h : validUTF8 s = true) : ∀ c ∈ characters s, ∃ r, Spells c r := by
  induction s using characters_induction with
  | hnil => nofun
  | hchar c r hc hfirst s ih =>
    rw [validUTF8_append_of_spells hc] at h
    rw [hfirst, forall_mem_cons]
    exact ⟨⟨r, hc⟩, ih h⟩
  | hstray a s hrunes _ _ _ =>
    rw [validUTF8, hrunes] at h
    cases h

/-- A piece that is valid is a character. -/
theorem spells_of_mem (hc : c ∈ characters s) (hvalid : validUTF8 c = true) :
    ∃ r, Spells c r := by
  induction s using characters_induction with
  | hnil => cases hc
  | hchar d r hd hfirst s ih =>
    rw [hfirst] at hc
    rcases mem_cons.1 hc with rfl | hc
    · exact ⟨r, hd⟩
    · exact ih hc
  | hstray a s _ hone hfirst ih =>
    rw [hfirst] at hc
    rcases mem_cons.1 hc with rfl | hc
    · rw [validUTF8, hone] at hvalid
      cases hvalid
    · exact ih hc

/-- The characters of characters that are put together. -/
theorem runes_flatten {cs : List Bytes} (h : ∀ c ∈ cs, ∃ r, Spells c r) :
    runes cs.flatten = cs.flatMap runes := by
  induction cs with
  | nil => rfl
  | cons c cs ih =>
    obtain ⟨⟨r, hc⟩, hcs⟩ := forall_mem_cons.1 h
    rw [flatten_cons, hc, ih hcs, flatMap_cons, hc.runes_eq, singleton_append]

/-- **A valid string is cut the same way whatever follows it.** -/
theorem characters_append (h : validUTF8 s = true) (t : Bytes) :
    characters (s ++ t) = characters s ++ characters t := by
  induction s using characters_induction with
  | hnil => rfl
  | hchar c r hc hfirst s ih =>
    rw [validUTF8_append_of_spells hc] at h
    rw [append_assoc, hfirst, hfirst, ih h, cons_append]
  | hstray a s hrunes _ _ _ =>
    rw [validUTF8, hrunes] at h
    cases h

theorem Spells.characters_eq (h : Spells c r) : characters c = [c] := by
  have hlen : ∀ s, (characters s).length = (runes s).length := by
    intro s
    induction s using characters_induction with
    | hnil => rfl
    | hchar c r hc hfirst s ih => rw [hfirst, hc, length_cons, ih, length_cons]
    | hstray a s hrunes _ hfirst ih => rw [hfirst, hrunes, length_cons, ih, length_cons]
  have hone : (characters c).length = 1 := by rw [hlen, h.runes_eq, length_singleton]
  obtain ⟨d, hd⟩ := length_eq_one_iff.1 hone
  have hflat := flatten_characters c
  rw [hd, flatten_singleton] at hflat
  rw [hd, hflat]

/-- **A valid string does not end inside a character** of the text that it starts. -/
theorem prefix_append_char {p g : Bytes} (hp : validUTF8 p = true) (hg : validUTF8 g = true)
    (hc : Spells c r) (h : p <+: g ++ c) : p = g ++ c ∨ p <+: g := by
  obtain ⟨q, hq⟩ := h
  have hchars : characters p ++ characters q = characters g ++ [c] := by
    rw [← characters_append hp, hq, characters_append hg, hc.characters_eq]
  rcases eq_nil_or_concat (characters q) with hnil | ⟨qs, d, hconcat⟩
  · left
    rw [← flatten_characters q, hnil] at hq
    simpa using hq
  · right
    rw [hconcat, concat_eq_append, ← append_assoc] at hchars
    obtain ⟨hinit, -⟩ := append_inj' hchars rfl
    rw [← flatten_characters p, ← flatten_characters g, ← hinit, flatten_append]
    exact prefix_append _ _

/-- **Trimming the end** of a text keeps what does not end with white space. -/
theorem prefix_trimRight {p g : Bytes} (hp : validUTF8 p = true) (hg : validUTF8 g = true)
    (hend : trailLen p.reverse = 0) (h : p <+: g) : p <+: trimRight g := by
  have hloop : ∀ (n : ℕ) (s : Bytes), validUTF8 s.reverse = true → p <+: s.reverse →
      p <+: (trimBy trailLen n s).reverse := by
    intro n
    induction n with
    | zero => exact fun s _ hps => hps
    | succ n ih =>
      intro s hs hps
      rw [trimBy]
      split
      · exact hps
      · rename_i hne
        obtain ⟨a, w, heq, -, r, hr⟩ := exists_of_trailLen s hne
        have hvalid : validUTF8 (s.drop (trailLen s)).reverse = true :=
          validUTF8_of_runes (fun r hr => (runes_drop_trailLen s).subset hr) hs
        refine ih _ hvalid ((prefix_append_char hp hvalid hr (heq ▸ hps)).resolve_left fun hall => ?_)
        rw [hall, ← heq, reverse_reverse] at hend
        exact hne hend
  exact hloop g.length g.reverse (by rwa [reverse_reverse]) (by rwa [reverse_reverse])

/-! ## Replacing what is no character -/

/-- U+FFFD. -/
def replacementChar : Bytes := [0xef, 0xbf, 0xbd]

theorem spells_replacementChar : Spells replacementChar 0xfffd := fun _ => rfl

end Gombit
