import Gombit.Foundations.Table
import Mathlib.Data.Prod.Lex
import Mathlib.Data.List.Sort

/-!
# Sorted sets

A sorted set gives each of its members a score, and is read in order of score, members with the
same score in the order of the members. It is a table from members to scores; `sorted` is its
order, and every ranged read is a part of `sorted`.

* `mem_sorted`, `sorted_pairwise`: `sorted` lists the members once each, strictly increasing.
* `first_spec`, `first_eq_none`: the first member with a score up to a bound.
* `eq_sorted`: a strictly increasing list with the right members is `sorted`.
-/

namespace Gombit

open List

/-- A sorted set, as the table of its scores. -/
abbrev SortedSet (α : Type*) := Table α ℤ

namespace SortedSet

variable {α : Type*} [LinearOrder α]

/-- The members with their scores, by score and then by member. -/
def sorted (s : SortedSet α) : List (ℤ ×ₗ α) :=
  (s.entries.map fun e => toLex (e.2, e.1)).insertionSort (· ≤ ·)

variable {a : ℤ ×ₗ α} {bound : ℤ}

theorem mem_sorted {s : SortedSet α} :
    a ∈ s.sorted ↔ s.lookup (ofLex a).2 = some (ofLex a).1 := by
  unfold sorted
  rw [(perm_insertionSort _ _).mem_iff, mem_map]
  constructor
  · rintro ⟨⟨m, x⟩, he, rfl⟩
    exact Table.mem_entries_iff.1 he
  · intro h
    exact ⟨⟨(ofLex a).2, (ofLex a).1⟩, Table.mem_entries_iff.2 h, rfl⟩

theorem mem_sorted_toLex {s : SortedSet α} {m : α} {x : ℤ} :
    toLex (x, m) ∈ s.sorted ↔ s.lookup m = some x :=
  mem_sorted

theorem length_sorted (s : SortedSet α) : s.sorted.length = s.keys.length := by
  simp [sorted, AList.keys, List.keys, (perm_insertionSort _ _).length_eq]

theorem sorted_nodup (s : SortedSet α) : s.sorted.Nodup := by
  unfold sorted
  rw [(perm_insertionSort _ _).nodup_iff]
  refine List.Nodup.map_on ?_ (List.Nodup.of_map Sigma.fst s.nodupKeys)
  rintro ⟨m, x⟩ _ ⟨m', x'⟩ _ h
  have h' : (x, m) = (x', m') := congrArg ofLex h
  cases h'
  rfl

/-- The order is strict. -/
theorem sorted_pairwise (s : SortedSet α) : s.sorted.Pairwise (· < ·) := by
  have hle : s.sorted.Pairwise (· ≤ ·) := pairwise_insertionSort _ _
  exact (hle.and s.sorted_nodup).imp fun h => lt_of_le_of_ne h.1 h.2

/-- The order is determined by the members: any strictly increasing list of them is it. -/
theorem eq_sorted {s : SortedSet α} {l : List (ℤ ×ₗ α)} (hl : l.Pairwise (· < ·))
    (hmem : ∀ a, a ∈ l ↔ s.lookup (ofLex a).2 = some (ofLex a).1) : l = s.sorted := by
  have hperm : l.Perm s.sorted := by
    refine (perm_ext_iff_of_nodup ?_ s.sorted_nodup).2 fun a => ?_
    · exact hl.imp fun h => ne_of_lt h
    · rw [hmem, mem_sorted]
  exact List.Perm.eq_of_pairwise' (hl.imp fun h => le_of_lt h)
    (s.sorted_pairwise.imp fun h => le_of_lt h) hperm

/-! ## The first member up to a bound -/

/-- The first member whose score is at most `bound`, with its score. -/
def first (s : SortedSet α) (bound : ℤ) : Option (ℤ ×ₗ α) :=
  s.sorted.find? fun a => decide ((ofLex a).1 ≤ bound)

theorem first_eq_none {s : SortedSet α} :
    s.first bound = none ↔ ∀ m x, s.lookup m = some x → bound < x := by
  unfold first
  rw [List.find?_eq_none]
  constructor
  · intro h m x hm
    have hx := h _ (mem_sorted_toLex.2 hm)
    simp only [decide_eq_true_eq, not_le] at hx
    exact hx
  · intro h a ha
    have hx := h _ _ (mem_sorted.1 ha)
    simpa using hx

/-- When nothing is within the bound, what is comes before every member. -/
theorem le_of_first_eq_none {s : SortedSet α} (h : s.first bound = none)
    {b : ℤ ×ₗ α} (ha : (ofLex a).1 ≤ bound) (hb : s.lookup (ofLex b).2 = some (ofLex b).1) :
    a ≤ b := by
  have hlt := first_eq_none.1 h _ _ hb
  exact le_of_lt (Prod.Lex.lt_iff.2 (.inl (by omega)))

theorem first_spec {s : SortedSet α} (h : s.first bound = some a) :
    s.lookup (ofLex a).2 = some (ofLex a).1 ∧ (ofLex a).1 ≤ bound ∧
      ∀ b, s.lookup (ofLex b).2 = some (ofLex b).1 → a ≤ b := by
  obtain ⟨hp, as, bs, hs, has⟩ := List.find?_eq_some_iff_append.1 h
  have hmem : a ∈ s.sorted := by rw [hs]; simp
  have hbound : (ofLex a).1 ≤ bound := by simpa using hp
  refine ⟨mem_sorted.1 hmem, hbound, ?_⟩
  intro b hb
  have hb' := mem_sorted.2 hb
  have hpair := s.sorted_pairwise
  rw [hs] at hb' hpair
  rw [pairwise_append, pairwise_cons] at hpair
  rcases mem_append.1 hb' with hb' | hb'
  · -- before `a` nothing is within the bound, so such a member could not come before `a`
    have hlt := hpair.2.2 b hb' a (by simp)
    have hout : bound < (ofLex b).1 := by simpa using has b hb'
    rw [Prod.Lex.lt_iff] at hlt
    omega
  · rcases mem_cons.1 hb' with rfl | hb'
    · exact le_rfl
    · exact le_of_lt (hpair.2.1.1 b hb')

end SortedSet

end Gombit
