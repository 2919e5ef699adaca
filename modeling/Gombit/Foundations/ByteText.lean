import Gombit.Foundations.Bytes
import Gombit.Foundations.Scanning

/-!
# Text in bytes

White space at the ends of a string (`trimSpace`), its parts around a byte (`cut`, `List.splitOn`)
and its lower case (`toLower`), for strings in UTF-8.

A string is `Trimmed` if it has no white space at either end: `trimSpace` gives such a string, and
leaves one as it is.
-/

namespace Gombit

open List

/-! ## White space -/

/-- A character of white space in one byte. -/
def isSpace1 (a : UInt8) : Bool := (9 ≤ a && a ≤ 13) || a = 32

/-- A character of white space in two bytes: U+0085 and U+00A0. -/
def isSpace2 (a b : UInt8) : Bool := a = 0xc2 && (b = 0x85 || b = 0xa0)

/-- A character of white space in three bytes. -/
def isSpace3 (a b c : UInt8) : Bool :=
  (a = 0xe1 && b = 0x9a && c = 0x80) ||
  (a = 0xe2 && b = 0x80 && ((0x80 ≤ c && c ≤ 0x8a) || c = 0xa8 || c = 0xa9 || c = 0xaf)) ||
  (a = 0xe2 && b = 0x81 && c = 0x9f) || (a = 0xe3 && b = 0x80 && c = 0x80)

/-- The length of the white space character that a string starts with, given those of each length. -/
def spaceLen (p₁ : UInt8 → Bool) (p₂ : UInt8 → UInt8 → Bool) (p₃ : UInt8 → UInt8 → UInt8 → Bool) :
    Bytes → ℕ
  | [] => 0
  | [a] => if p₁ a then 1 else 0
  | [a, b] => if p₁ a then 1 else if p₂ a b then 2 else 0
  | a :: b :: c :: _ => if p₁ a then 1 else if p₂ a b then 2 else if p₃ a b c then 3 else 0

/-- The length of the white space character at the start of a string. -/
def leadLen (s : Bytes) : ℕ := spaceLen isSpace1 isSpace2 isSpace3 s

/-- The length of the white space character at the start of a reversed string. -/
def trailLen (s : Bytes) : ℕ :=
  spaceLen isSpace1 (fun b a => isSpace2 a b) (fun c b a => isSpace3 a b c) s

/-- A string without its prefixes of the given length. -/
def trimBy (len : Bytes → ℕ) : ℕ → Bytes → Bytes
  | 0, s => s
  | n + 1, s => if len s = 0 then s else trimBy len n (s.drop (len s))

def trimLeft (s : Bytes) : Bytes := trimBy leadLen s.length s

def trimRight (s : Bytes) : Bytes := (trimBy trailLen s.length s.reverse).reverse

/-- `strings.TrimSpace`. -/
def trimSpace (s : Bytes) : Bytes := trimRight (trimLeft s)

/-- There is no white space at either end. -/
def Trimmed (s : Bytes) : Prop := leadLen s = 0 ∧ trailLen s.reverse = 0

instance : DecidablePred Trimmed := fun _ => inferInstanceAs (Decidable (_ ∧ _))

theorem trimmed_nil : Trimmed [] := by decide

variable {x : UInt8} {s t : Bytes} {p₃ : UInt8 → UInt8 → UInt8 → Bool}

theorem drop_append_cons {n : ℕ} (h : x ∉ (s ++ x :: t).take n) :
    (s ++ x :: t).drop n = s.drop n ++ x :: t ∧ x ∉ s.take n := by
  have hn : n ≤ s.length := by
    by_contra hlt
    refine h ?_
    obtain ⟨k, rfl⟩ : ∃ k, n = s.length + (k + 1) := ⟨n - s.length - 1, by omega⟩
    rw [take_length_add_append]
    exact mem_append_right _ mem_cons_self
  rw [take_append_of_le_length hn] at h
  exact ⟨drop_append_of_le_length hn, h⟩

section TrimBy

variable {len : Bytes → ℕ}

theorem trimBy_of_len_eq_zero (h : len s = 0) (n : ℕ) : trimBy len n s = s := by
  cases n with
  | zero => rfl
  | succ n => exact if_pos h

theorem trimBy_suffix (n : ℕ) (s : Bytes) : trimBy len n s <:+ s := by
  induction n generalizing s with
  | zero => exact suffix_rfl
  | succ n ih =>
    rw [trimBy]
    split
    · exact suffix_rfl
    · exact (ih _).trans (List.drop_suffix _ _)

theorem len_trimBy (hnil : len [] = 0) {n : ℕ} (h : s.length ≤ n) :
    len (trimBy len n s) = 0 := by
  induction n generalizing s with
  | zero =>
    obtain rfl := length_eq_zero_iff.1 (Nat.le_zero.1 h)
    exact hnil
  | succ n ih =>
    rw [trimBy]
    split
    · assumption
    · refine ih ?_
      rw [length_drop]
      omega

/-- Trimming stops at a byte that is no white space. -/
theorem trimBy_append_cons (hx : ∀ s : Bytes, x ∉ s.take (len s)) (t r : Bytes) (n : ℕ) :
    ∃ t', trimBy len n (t ++ x :: r) = t' ++ x :: r ∧ t' <:+ t := by
  induction n generalizing t with
  | zero => exact ⟨t, rfl, suffix_rfl⟩
  | succ n ih =>
    rw [trimBy]
    split
    · exact ⟨t, rfl, suffix_rfl⟩
    · rw [(drop_append_cons (hx _)).1]
      obtain ⟨t', h, hsuffix⟩ := ih (t.drop (len (t ++ x :: r)))
      exact ⟨t', h, hsuffix.trans (List.drop_suffix _ _)⟩

end TrimBy

variable {p₂ : UInt8 → UInt8 → Bool}

/-- A string of which a prefix starts with white space does so too. -/
theorem spaceLen_eq_zero_of_prefix {p₁ : UInt8 → Bool} (hs : spaceLen p₁ p₂ p₃ s = 0)
    (h : t <+: s) : spaceLen p₁ p₂ p₃ t = 0 := by
  obtain ⟨r, rfl⟩ := h
  match t with
  | [] => rfl
  | [a] =>
    match r with
    | [] => exact hs
    | [b] => simp only [cons_append, nil_append, spaceLen] at hs ⊢; split at hs <;> simp_all
    | b :: c :: r =>
      simp only [cons_append, nil_append, spaceLen] at hs ⊢; split at hs <;> simp_all
  | [a, b] =>
    match r with
    | [] => exact hs
    | c :: r =>
      simp only [cons_append, nil_append, spaceLen] at hs ⊢
      split at hs
      · simp_all
      · split at hs <;> simp_all
  | a :: b :: c :: t => exact hs

theorem trimSpace_isInfix (s : Bytes) : trimSpace s <:+: s := by
  have hright : trimSpace s <+: trimLeft s := by
    rw [← List.reverse_suffix, trimSpace, trimRight, reverse_reverse]
    exact trimBy_suffix _ _
  exact hright.isInfix.trans (trimBy_suffix _ _).isInfix

theorem length_trimSpace_le (s : Bytes) : (trimSpace s).length ≤ s.length :=
  (trimSpace_isInfix s).length_le

/-- **Trimming leaves no white space at the ends.** -/
theorem trimmed_trimSpace (s : Bytes) : Trimmed (trimSpace s) := by
  have hlead : leadLen (trimLeft s) = 0 := len_trimBy rfl le_rfl
  constructor
  · refine spaceLen_eq_zero_of_prefix hlead ?_
    rw [← List.reverse_suffix, trimSpace, trimRight, reverse_reverse]
    exact trimBy_suffix _ _
  · rw [trimSpace, trimRight, reverse_reverse]
    exact len_trimBy rfl (by rw [length_reverse])

/-- **A string without white space at its ends is left as it is.** -/
theorem Trimmed.trimSpace_eq (h : Trimmed s) : trimSpace s = s := by
  rw [trimSpace, trimLeft, trimBy_of_len_eq_zero h.1, trimRight, trimBy_of_len_eq_zero h.2,
    reverse_reverse]

/-! ### Bytes that are no part of white space -/

/-- An ASCII byte that is no white space. -/
def isPlain (x : UInt8) : Bool := x < 0x80 && !isSpace1 x

theorem isSpace1_of_plain (h : isPlain x = true) : isSpace1 x = false := by
  simpa using (Bool.and_eq_true_iff.1 h).2

theorem ne_of_plain {y : UInt8} (h : isPlain x = true) (hy : 0x80 ≤ y) : x ≠ y := by
  rintro rfl
  have hlt := of_decide_eq_true (Bool.and_eq_true_iff.1 h).1
  exact absurd hlt (UInt8.not_lt.2 hy)

theorem isSpace2_of_plain (h : isPlain x = true) (y : UInt8) :
    isSpace2 x y = false ∧ isSpace2 y x = false := by
  simp [isSpace2, ne_of_plain h]

theorem isSpace3_of_plain (h : isPlain x = true) (y z : UInt8) :
    isSpace3 x y z = false ∧ isSpace3 y x z = false ∧ isSpace3 y z x = false := by
  have hlt : ¬ (0x80 ≤ x) := UInt8.not_le.2 (of_decide_eq_true (Bool.and_eq_true_iff.1 h).1)
  simp [isSpace3, ne_of_plain h, hlt]

/-- The white space characters, by their length. -/
theorem spaceLen_cases {p₁ : UInt8 → Bool} {P : Bytes → ℕ → Prop} (hzero : ∀ s, P s 0)
    (hone : ∀ a s, p₁ a = true → P (a :: s) 1) (htwo : ∀ a b s, p₂ a b = true → P (a :: b :: s) 2)
    (hthree : ∀ a b c s, p₃ a b c = true → P (a :: b :: c :: s) 3) (s : Bytes) :
    P s (spaceLen p₁ p₂ p₃ s) := by
  match s with
  | [] => exact hzero []
  | [a] =>
    rw [spaceLen]
    split
    · exact hone a [] ‹_›
    · exact hzero _
  | [a, b] =>
    rw [spaceLen]
    split
    · exact hone a [b] ‹_›
    split
    · exact htwo a b [] ‹_›
    · exact hzero _
  | a :: b :: c :: s =>
    rw [spaceLen]
    split
    · exact hone a (b :: c :: s) ‹_›
    split
    · exact htwo a b (c :: s) ‹_›
    split
    · exact hthree a b c s ‹_›
    · exact hzero _

section SpaceLen

variable {p₁ : UInt8 → Bool} {p₂ : UInt8 → UInt8 → Bool} {p₃ : UInt8 → UInt8 → UInt8 → Bool}
  {x : UInt8} (h₁ : p₁ x = false) (h₂ : ∀ y, p₂ x y = false ∧ p₂ y x = false)
  (h₃ : ∀ y z, p₃ x y z = false ∧ p₃ y x z = false ∧ p₃ y z x = false)

include h₁ h₂ h₃ in
theorem spaceLen_cons (s : Bytes) : spaceLen p₁ p₂ p₃ (x :: s) = 0 := by
  match s with
  | [] => simp [spaceLen, h₁]
  | [b] => simp [spaceLen, h₁, (h₂ b).1]
  | b :: c :: _ => simp [spaceLen, h₁, (h₂ b).1, (h₃ b c).1]

include h₂ h₃ in
theorem spaceLen_append_cons (ht : spaceLen p₁ p₂ p₃ t = 0) (hne : t ≠ []) (r : Bytes) :
    spaceLen p₁ p₂ p₃ (t ++ x :: r) = 0 := by
  match t with
  | [] => exact absurd rfl hne
  | [a] =>
    have ha : p₁ a = false := by
      rw [spaceLen] at ht
      split at ht <;> simp_all
    cases r with
    | nil => simp [spaceLen, ha, (h₂ a).2]
    | cons b r => simp [spaceLen, ha, (h₂ a).2, (h₃ a b).2.1]
  | [a, b] =>
    have hab : p₁ a = false ∧ p₂ a b = false := by
      rw [spaceLen] at ht
      split at ht
      · cases ht
      · split at ht <;> simp_all
    simp [spaceLen, hab.1, hab.2, (h₃ a b).2.2]
  | a :: b :: c :: t => exact ht

include h₁ h₂ h₃ in
/-- A byte that is no part of white space is not in the white space at the start. -/
theorem notMem_take_spaceLen (s : Bytes) : x ∉ s.take (spaceLen p₁ p₂ p₃ s) := by
  refine spaceLen_cases (P := fun s n => x ∉ s.take n) (fun s => by simp) ?_ ?_ ?_ s
  · intro a s ha hx
    simp only [take_succ_cons, take_zero, mem_singleton] at hx
    simp_all
  · intro a b s hab hx
    simp only [take_succ_cons, take_zero, mem_cons, not_mem_nil, or_false] at hx
    rcases hx with rfl | rfl <;> simp_all
  · intro a b c s habc hx
    simp only [take_succ_cons, take_zero, mem_cons, not_mem_nil, or_false] at hx
    rcases hx with rfl | rfl | rfl <;> simp_all

end SpaceLen

theorem leadLen_cons (h : isPlain x = true) (s : Bytes) : leadLen (x :: s) = 0 :=
  spaceLen_cons (isSpace1_of_plain h) (isSpace2_of_plain h) (isSpace3_of_plain h) s

theorem plain_reverse (hx : isPlain x = true) :
    (∀ y, isSpace2 y x = false ∧ isSpace2 x y = false) ∧
      ∀ y z, isSpace3 z y x = false ∧ isSpace3 z x y = false ∧ isSpace3 x z y = false := by
  refine ⟨fun y => (isSpace2_of_plain hx y).symm, fun y z => ?_⟩
  obtain ⟨h, h', h''⟩ := isSpace3_of_plain hx z y
  exact ⟨h'', h', h⟩

theorem trailLen_cons (h : isPlain x = true) (s : Bytes) : trailLen (x :: s) = 0 :=
  spaceLen_cons (isSpace1_of_plain h) (plain_reverse h).1 (plain_reverse h).2 s

theorem trimmed_of_plain (h : ∀ b ∈ s, isPlain b = true) : Trimmed s := by
  constructor
  · cases s with
    | nil => rfl
    | cons a s => exact leadLen_cons (h a mem_cons_self) s
  · cases hs : s.reverse with
    | nil => rfl
    | cons a t => exact trailLen_cons (h a (mem_reverse.1 (hs ▸ mem_cons_self))) t

/-- A string of which the part after a plain byte is trimmed at its end is so too. -/
theorem Trimmed.append_cons (hx : isPlain x = true) (hs : leadLen s = 0) (hne : s ≠ [])
    (ht : Trimmed t) (htne : t ≠ []) : Trimmed (s ++ x :: t) := by
  obtain ⟨h₂, h₃⟩ := plain_reverse hx
  constructor
  · exact spaceLen_append_cons (isSpace2_of_plain hx) (isSpace3_of_plain hx) hs hne t
  · rw [reverse_append, reverse_cons, append_assoc, singleton_append]
    exact spaceLen_append_cons h₂ h₃ ht.2 (by simpa using htne) _

theorem notMem_take_leadLen (hx : isPlain x = true) (s : Bytes) : x ∉ s.take (leadLen s) :=
  notMem_take_spaceLen (isSpace1_of_plain hx) (isSpace2_of_plain hx) (isSpace3_of_plain hx) s

theorem notMem_take_trailLen (hx : isPlain x = true) (s : Bytes) : x ∉ s.take (trailLen s) :=
  notMem_take_spaceLen (isSpace1_of_plain hx) (plain_reverse hx).1 (plain_reverse hx).2 s

/-- **Trimming stops at a plain byte**, from both ends. -/
theorem trimSpace_append_cons (hx : isPlain x = true) (s t : Bytes) :
    ∃ s' t', trimSpace (s ++ x :: t) = s' ++ x :: t' ∧ s' <:+ s ∧ t' <+: t := by
  obtain ⟨s', hleft, hs⟩ := trimBy_append_cons (notMem_take_leadLen hx) s t (s ++ x :: t).length
  obtain ⟨t', hright, ht⟩ := trimBy_append_cons (notMem_take_trailLen hx) t.reverse s'.reverse
    (s' ++ x :: t).length
  refine ⟨s', t'.reverse, ?_, hs, List.reverse_suffix.1 (by rwa [reverse_reverse])⟩
  have hrev : (s' ++ x :: t).reverse = t.reverse ++ x :: s'.reverse := by simp
  rw [trimSpace, trimLeft, hleft, trimRight, hrev, hright]
  simp

/-- A byte that is no part of white space is not trimmed. -/
theorem mem_trimSpace (hx : isPlain x = true) (h : x ∈ s) : x ∈ trimSpace s := by
  obtain ⟨s, t, rfl⟩ := mem_iff_append.1 h
  obtain ⟨s', t', heq, -⟩ := trimSpace_append_cons hx s t
  rw [heq]
  exact mem_append_right _ mem_cons_self

theorem mem_of_mem_trimSpace (h : x ∈ trimSpace s) : x ∈ s :=
  (trimSpace_isInfix s).subset h

/-! ## Parts -/

/-- `strings.Cut`: what is before and after the first occurrence of a byte. -/
def cut (x : UInt8) : Bytes → Option (Bytes × Bytes)
  | [] => none
  | b :: s => if b = x then some ([], s) else (cut x s).map fun p => (b :: p.1, p.2)

theorem cut_cases (x : UInt8) (s : Bytes) :
    (cut x s = none ∧ x ∉ s) ∨ ∃ a b, cut x s = some (a, b) ∧ s = a ++ x :: b ∧ x ∉ a := by
  induction s with
  | nil => exact Or.inl ⟨rfl, not_mem_nil⟩
  | cons c s ih =>
    by_cases hc : c = x
    · exact Or.inr ⟨[], s, by simp [cut, hc], by simp [hc], not_mem_nil⟩
    · have hcut : cut x (c :: s) = (cut x s).map fun p => (c :: p.1, p.2) := by simp [cut, hc]
      rcases ih with ⟨hnone, hmem⟩ | ⟨a, b, hsome, hs, hmem⟩
      · refine Or.inl ⟨by rw [hcut, hnone]; rfl, ?_⟩
        simp [hmem, Ne.symm hc]
      · refine Or.inr ⟨c :: a, b, by rw [hcut, hsome]; rfl, by rw [hs]; rfl, ?_⟩
        simp [hmem, Ne.symm hc]

theorem cut_append_cons {a : Bytes} (h : x ∉ a) (b : Bytes) :
    cut x (a ++ x :: b) = some (a, b) := by
  induction a with
  | nil => exact if_pos rfl
  | cons y a ih =>
    have hne : y ≠ x := fun hyx => h (hyx ▸ mem_cons_self)
    rw [cons_append, cut, if_neg hne, ih fun hx => h (mem_cons_of_mem y hx)]
    rfl

theorem eq_of_cut {a b : Bytes} (h : cut x s = some (a, b)) : s = a ++ x :: b := by
  induction s generalizing a with
  | nil => cases h
  | cons y s ih =>
    rw [cut] at h
    split at h
    · rename_i hyx
      subst hyx
      cases h
      rfl
    · obtain ⟨p, hp, hpair⟩ := Option.map_eq_some_iff.1 h
      cases hpair
      rw [cons_append, ← ih hp]

/-- The parts of a string around a byte do not hold the byte. -/
theorem notMem_of_mem_splitOn (h : t ∈ s.splitOn x) : x ∉ t := by
  induction s generalizing t with
  | nil =>
    rw [splitOn_nil, mem_singleton] at h
    rw [h]
    exact not_mem_nil
  | cons y s ih =>
    rw [List.splitOn, splitOnP_cons_eq_if_modifyHead, ← List.splitOn] at h
    split at h
    · rcases mem_cons.1 h with rfl | h
      · exact not_mem_nil
      · exact ih h
    · rename_i hyx
      cases hs : s.splitOn x with
      | nil =>
        rw [hs] at h
        cases h
      | cons u us =>
        rw [hs, modifyHead_cons] at h
        rcases mem_cons.1 h with rfl | h
        · intro hx
          rcases mem_cons.1 hx with rfl | hx
          · exact hyx (by simp)
          · exact ih (hs ▸ mem_cons_self) hx
        · exact ih (hs ▸ mem_cons_of_mem u h)

variable {vs : List Bytes}

theorem intercalate_cons {v : Bytes} (x : UInt8) (h : vs ≠ []) :
    [x].intercalate (v :: vs) = v ++ x :: [x].intercalate vs := by
  obtain ⟨w, vs, rfl⟩ := exists_cons_of_ne_nil h
  rw [intercalate_cons_cons, append_assoc]
  rfl

theorem notMem_intercalate {y : UInt8} (hxy : y ≠ x) (h : ∀ v ∈ vs, y ∉ v) :
    y ∉ [x].intercalate vs := by
  intro hy
  rcases mem_intercalate hy with hx | ⟨v, hv, hyv⟩
  · exact hxy (mem_singleton.1 hx)
  · exact h v hv hyv

/-- **A joined string splits one way only**, if its parts are not empty and do not hold the first byte
of the separator. -/
theorem intercalate_inj {sep : Bytes} {ws : List Bytes} (hv : ∀ v ∈ vs, v ≠ [] ∧ x ∉ v)
    (hw : ∀ w ∈ ws, w ≠ [] ∧ x ∉ w) (h : (x :: sep).intercalate vs = (x :: sep).intercalate ws) :
    vs = ws := by
  have hmany : ∀ (u v : Bytes) (us : List Bytes), (x :: sep).intercalate (u :: v :: us) =
      u ++ x :: (sep ++ (x :: sep).intercalate (v :: us)) := fun u v us => by
    rw [intercalate_cons_cons, append_assoc, cons_append]
  induction vs generalizing ws with
  | nil =>
    rcases ws with _ | ⟨w, _ | ⟨w', ws⟩⟩
    · rfl
    · rw [intercalate_singleton] at h
      exact absurd h.symm (hw w mem_cons_self).1
    · rw [hmany] at h
      exact absurd h.symm (by simp)
  | cons v vs ih =>
    obtain ⟨⟨hne, hx⟩, hvs⟩ := forall_mem_cons.1 hv
    rcases vs with _ | ⟨v', vs⟩
    · rw [intercalate_singleton] at h
      rcases ws with _ | ⟨w, _ | ⟨w', ws⟩⟩
      · exact absurd h hne
      · rw [h, intercalate_singleton]
      · rw [hmany] at h
        exact absurd (h ▸ mem_append_right _ mem_cons_self) hx
    · rw [hmany] at h
      rcases ws with _ | ⟨w, _ | ⟨w', ws⟩⟩
      · exact absurd h (by simp)
      · rw [intercalate_singleton] at h
        exact absurd (h ▸ mem_append_right _ mem_cons_self) (hw w mem_cons_self).2
      · obtain ⟨⟨-, hx'⟩, hws⟩ := forall_mem_cons.1 hw
        rw [hmany] at h
        obtain ⟨rfl, htail⟩ := append_cons_inj hx hx' h
        rw [ih hvs hws (append_cancel_left htail)]

/-- The last part of a string. -/
theorem splitOn_append_cons {y : UInt8} (hne : y ≠ x) (ht : x ∉ t) :
    ∃ parts last, (s ++ y :: t).splitOn x = parts ++ [last] ∧ y ∈ last := by
  have hsingle : ∀ {l : Bytes}, x ∉ l → l.splitOn x = [l] := fun hl =>
    splitOnP_eq_singleton fun z hz => by
      simpa using fun hzx : z = x => hl (hzx ▸ hz)
  by_cases hs : x ∈ s
  · obtain ⟨u, v, hrev, hu⟩ := eq_append_cons_of_mem (mem_reverse.2 hs)
    have hs' : s = v.reverse ++ x :: u.reverse := by
      rw [← reverse_reverse s, hrev]
      simp
    have hlast : x ∉ u.reverse ++ y :: t := by
      rw [mem_append, mem_reverse, mem_cons]
      rintro (hmem | hmem | hmem)
      · exact hu hmem
      · exact hne hmem.symm
      · exact ht hmem
    refine ⟨v.reverse.splitOn x, u.reverse ++ y :: t, ?_, by simp⟩
    rw [hs', append_assoc, cons_append, ← hsingle hlast]
    exact splitOnP_append_cons _ _ (by simp)
  · refine ⟨[], s ++ y :: t, hsingle ?_, by simp⟩
    rw [mem_append, mem_cons]
    rintro (hmem | hmem | hmem)
    · exact hs hmem
    · exact hne hmem.symm
    · exact ht hmem

/-! ## Lower case -/

def lowerByte (a : UInt8) : UInt8 := if 65 ≤ a ∧ a ≤ 90 then a + 32 else a

/-- A byte before a text in lower case. Of the letters that are not ASCII, only U+0130 and U+212A have
an ASCII letter for their lower case. -/
def lowerStep (a : UInt8) (s : Bytes) : Bytes :=
  if a = 0xc4 ∧ s.take 1 = [0xb0] then 105 :: s.drop 1
  else if a = 0xe2 ∧ s.take 2 = [0x84, 0xaa] then 107 :: s.drop 2
  else lowerByte a :: s

/-- `strings.ToLower`, as far as ASCII can tell. -/
def toLower (s : Bytes) : Bytes := s.foldr lowerStep []

theorem length_lowerStep_le (a : UInt8) (s : Bytes) : (lowerStep a s).length ≤ s.length + 1 := by
  unfold lowerStep
  split
  · simp only [length_cons, length_drop]
    omega
  · split
    · simp only [length_cons, length_drop]
      omega
    · simp

theorem length_toLower_le (s : Bytes) : (toLower s).length ≤ s.length := by
  induction s with
  | nil => exact le_rfl
  | cons a s ih =>
    rw [toLower] at ih ⊢
    exact (length_lowerStep_le a _).trans (Nat.succ_le_succ ih)

/-- A byte that is no letter and not part of one stays. -/
theorem mem_toLower (hlower : lowerByte x = x) (hx : x < 0x80) (h : x ∈ s) : x ∈ toLower s := by
  have hne : ∀ y : UInt8, 0x80 ≤ y → x ≠ y := by
    rintro y hy rfl
    exact absurd hx (UInt8.not_lt.2 hy)
  have hdrop : ∀ {n : ℕ} {s t : Bytes}, s.take n = t → x ∉ t → x ∈ s → x ∈ s.drop n := by
    intro n s t htake hnot hmem
    rw [← take_append_drop n s, htake] at hmem
    exact (mem_append.1 hmem).resolve_left hnot
  induction s with
  | nil => cases h
  | cons a s ih =>
    show x ∈ lowerStep a (toLower s)
    unfold lowerStep
    rcases mem_cons.1 h with rfl | h
    · rw [if_neg fun h => hne _ (by decide) h.1, if_neg fun h => hne _ (by decide) h.1, hlower]
      exact mem_cons_self
    · have hmem := ih h
      split
      · rename_i hseq
        exact mem_cons_of_mem _ (hdrop hseq.2 (by simp [hne 0xb0 (by decide)]) hmem)
      · split
        · rename_i hseq
          refine mem_cons_of_mem _ (hdrop hseq.2 ?_ hmem)
          simp [hne 0x84 (by decide), hne 0xaa (by decide)]
        · exact mem_cons_of_mem _ hmem

end Gombit
