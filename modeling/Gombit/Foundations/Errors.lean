import Mathlib.Data.Finset.Basic

/-!
# Errors of Go

An error value is a sentinel, or wraps one or two others (`fmt.Errorf` with `%w`, `errors.Join`).
`err == ErrX` compares values; `errors.Is(err, ErrX)` looks through what is wrapped.
-/

namespace Gombit

/-- Error values over the sentinels `α`, with their texts. -/
inductive GoError (α : Type*)
  | sentinel (a : α)
  | wrapped (text : String) (cause : GoError α)
  | joined (text : String) (first second : GoError α)
  deriving DecidableEq

namespace GoError

variable {α : Type*} [DecidableEq α]

/-- `errors.Is`. -/
def is : GoError α → α → Bool
  | .sentinel a, b => decide (a = b)
  | .wrapped _ e, b => e.is b
  | .joined _ e f, b => e.is b || f.is b

@[simp] theorem is_sentinel (a b : α) : (sentinel a).is b = decide (a = b) := rfl

@[simp] theorem is_wrapped (text : String) (e : GoError α) (b : α) :
    (wrapped text e).is b = e.is b := rfl

@[simp] theorem is_joined (text : String) (e f : GoError α) (b : α) :
    (joined text e f).is b = (e.is b || f.is b) := rfl

/-- The error's text, given those of the sentinels. -/
def message (text : α → String) : GoError α → String
  | .sentinel a => text a
  | .wrapped s _ => s
  | .joined s _ _ => s

end GoError

end Gombit
