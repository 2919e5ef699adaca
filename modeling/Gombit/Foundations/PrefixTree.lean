import Mathlib.Data.List.Basic
import Mathlib.Tactic.Common

/-!
# Trees of prefixes

A binary tree that collects prefixes of bit strings. A node is covered once a prefix ends there or
both of its children are covered, and a covered node forgets its children.

* `Holds`: the bit strings that a covered node stands above.
* `holds_insert`: inserting a prefix adds exactly the strings that continue it.
* `covered_iff`: the root is covered exactly when every string of a given length is held.
-/

namespace Gombit

/-- A tree of prefixes, `absent` being a child that was never made. -/
inductive PrefixTree where
  | absent
  | node (covered : Bool) (zero one : PrefixTree)
  deriving DecidableEq, Repr

variable {t : PrefixTree}

namespace PrefixTree

/-- The node a tree starts from. -/
def empty : PrefixTree := node false absent absent

/-- The covered node, without children. -/
def full : PrefixTree := node true absent absent

def covered : PrefixTree → Bool
  | absent => false
  | node c _ _ => c

def child : PrefixTree → Bool → PrefixTree
  | absent, _ => absent
  | node _ zero _, false => zero
  | node _ _ one, true => one

/-- The node with the children given, or the covered node once both of them are covered. -/
def join (zero one : PrefixTree) : PrefixTree :=
  if zero.covered && one.covered then full else node false zero one

/-- Replace a child of a node that is not covered. -/
def setChild (t : PrefixTree) : Bool → PrefixTree → PrefixTree
  | false, c => join c (t.child true)
  | true, c => join (t.child false) c

/-- Insert a prefix. -/
def insert (t : PrefixTree) : List Bool → PrefixTree
  | [] => if t.covered then t else full
  | b :: p => if t.covered then t else t.setChild b ((t.child b).insert p)

/-- The bit strings that a covered node stands above. -/
def Holds : PrefixTree → List Bool → Prop
  | absent, _ => False
  | node c _ _, [] => c = true
  | node c zero one, b :: s => c = true ∨ cond b (one.Holds s) (zero.Holds s)

/-- Two covered children never stay under a node that is not. -/
def Merged : PrefixTree → Prop
  | absent => True
  | node c zero one => zero.Merged ∧ one.Merged ∧ (zero.covered ∧ one.covered → c)

@[simp] theorem covered_full : full.covered = true := rfl

theorem merged_empty : empty.Merged := by simp [empty, Merged, covered]

theorem merged_full : full.Merged := by simp [full, Merged]

theorem not_holds_empty (s : List Bool) : ¬ empty.Holds s := by
  cases s with
  | nil => simp [empty, Holds]
  | cons b s => cases b <;> simp [empty, Holds]

/-- A covered node holds every string. -/
theorem holds_of_covered (h : t.covered = true) (s : List Bool) : t.Holds s := by
  cases t with
  | absent => cases h
  | node c zero one =>
    cases s with
    | nil => exact h
    | cons b s => exact Or.inl h

theorem holds_cons (h : t.covered = false) (b : Bool) (s : List Bool) :
    t.Holds (b :: s) ↔ (t.child b).Holds s := by
  cases t with
  | absent => cases b <;> exact Iff.rfl
  | node c zero one =>
    change c = false at h
    subst h
    cases b <;> simp [Holds, child]

theorem Merged.child (h : t.Merged) (b : Bool) : (t.child b).Merged := by
  cases t with
  | absent => exact trivial
  | node c zero one => cases b <;> [exact h.1; exact h.2.1]

/-! ## Joining two children -/

theorem holds_join (zero one : PrefixTree) (b : Bool) (s : List Bool) :
    (join zero one).Holds (b :: s) ↔ cond b (one.Holds s) (zero.Holds s) := by
  unfold join
  split
  next h =>
    rw [Bool.and_eq_true] at h
    have hzero := holds_of_covered h.1 s
    have hone := holds_of_covered h.2 s
    refine iff_of_true (holds_of_covered covered_full _) ?_
    cases b <;> assumption
  next h => simp [Holds]

theorem merged_join {zero one : PrefixTree} (hz : zero.Merged) (ho : one.Merged) :
    (join zero one).Merged := by
  unfold join
  split
  next h => exact merged_full
  next h =>
    refine ⟨hz, ho, fun hb => ?_⟩
    simp [hb.1, hb.2] at h

theorem holds_setChild (h : t.covered = false) (b : Bool) (c : PrefixTree) (d : Bool)
    (s : List Bool) :
    (t.setChild b c).Holds (d :: s) ↔ if d = b then c.Holds s else t.Holds (d :: s) := by
  rw [holds_cons h]
  cases b <;> cases d <;> simp [setChild, holds_join]

theorem merged_setChild {c : PrefixTree} (ht : t.Merged) (hc : c.Merged) (b : Bool) :
    (t.setChild b c).Merged := by
  cases b
  · exact merged_join hc (ht.child true)
  · exact merged_join (ht.child false) hc

/-! ## Insertion -/

theorem merged_insert (h : t.Merged) (p : List Bool) : (t.insert p).Merged := by
  induction p generalizing t with
  | nil =>
    rw [insert]
    split
    · exact h
    · exact merged_full
  | cons b p ih =>
    rw [insert]
    split
    · exact h
    · exact merged_setChild h (ih (h.child b)) b

/-- **Inserting a prefix adds the strings that continue it, and no others.** -/
theorem holds_insert (t : PrefixTree) {p s : List Bool} (hlen : p.length ≤ s.length) :
    (t.insert p).Holds s ↔ t.Holds s ∨ p <+: s := by
  induction p generalizing t s with
  | nil =>
    rw [insert]
    refine iff_of_true ?_ (Or.inr List.nil_prefix)
    split
    next h => exact holds_of_covered h s
    next h => exact holds_of_covered covered_full s
  | cons b p ih =>
    rw [insert]
    split
    next h => exact iff_of_true (holds_of_covered h s) (Or.inl (holds_of_covered h s))
    next h =>
      rw [Bool.not_eq_true] at h
      cases s with
      | nil => simp at hlen
      | cons d s =>
        -- only the child on the side of `b` changes
        rw [holds_setChild h, List.cons_prefix_cons]
        by_cases hd : d = b
        · subst hd
          rw [if_pos rfl, ih _ (by simpa using hlen), holds_cons h]
          simp
        · rw [if_neg hd]
          simp [Ne.symm hd]

/-- **The root is covered exactly when the tree holds every string of a length.** -/
theorem covered_iff (h : t.Merged) (w : ℕ) :
    t.covered = true ↔ ∀ s : List Bool, s.length = w → t.Holds s := by
  refine ⟨fun hc s _ => holds_of_covered hc s, fun hall => ?_⟩
  induction t generalizing w with
  | absent => exact (hall (List.replicate w false) List.length_replicate).elim
  | node c zero one ihz iho =>
    by_contra hc
    rw [covered, Bool.not_eq_true] at hc
    cases w with
    | zero =>
      have := hall [] rfl
      simp [Holds, hc] at this
    | succ w =>
      -- both children hold every string that is one shorter, so both are covered
      have hzero : zero.covered = true := ihz h.1 w fun s hs => by
        simpa [Holds, hc] using hall (false :: s) (by simp [hs])
      have hone : one.covered = true := iho h.2.1 w fun s hs => by
        simpa [Holds, hc] using hall (true :: s) (by simp [hs])
      exact absurd (h.2.2 ⟨hzero, hone⟩) (by simp [hc])

end PrefixTree

end Gombit
