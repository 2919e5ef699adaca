import Mathlib.Algebra.Order.Floor.Ring
import Mathlib.Data.Rat.Floor
import Mathlib.Tactic.FieldSimp
import Mathlib.Tactic.Linarith

/-!
# The throttle's sliding window

A rule counts the attempts of a subject in buckets as long as its window. An attempt fits when the
count of the current bucket, with it, and the part of the previous one that the window still covers
are at most the limit; when it does not fit, the throttle says how long to wait.

The arithmetic of the source is on floats. Here it is on rationals, with a rounding `fl` after every
operation: `id` is exact arithmetic.

* `Fits`: what is compared, and `wait_eq_zero_iff`, that a wait of zero says it fits.
* `bucketIndex`, `bucketElapsed`: the bucket of an instant and how far into it the instant is.
-/

namespace Gombit.Auth

/-! ## Rules -/

/-- `ThrottleLimit`, the window in nanoseconds. -/
structure ThrottleLimit where
  limit : ℤ
  window : ℤ
deriving DecidableEq

def ThrottleLimit.on (l : ThrottleLimit) : Bool := decide (0 < l.limit) && decide (0 < l.window)

/-- The rules of `ThrottlePolicy`. -/
inductive RuleName where
  | loginPerAccountAddress
  | loginPerAddress
  | loginPerAccount
  | registerPerAddress
  | passwordResetPerAddress
  | tokenPerAddress
  | currentPasswordPerUser
  | verificationPerUser
deriving DecidableEq

def RuleName.text : RuleName → String
  | .loginPerAccountAddress => "LoginPerAccountAddress"
  | .loginPerAddress => "LoginPerAddress"
  | .loginPerAccount => "LoginPerAccount"
  | .registerPerAddress => "RegisterPerAddress"
  | .passwordResetPerAddress => "PasswordResetPerAddress"
  | .tokenPerAddress => "TokenPerAddress"
  | .currentPasswordPerUser => "CurrentPasswordPerUser"
  | .verificationPerUser => "VerificationPerUser"

/-- `throttleRule`: one rule applied to one subject. -/
structure ThrottleRule where
  name : RuleName
  limit : ThrottleLimit
  subject : String
deriving DecidableEq

/-! ## Durations -/

/-- `time.Second`. -/
def second : ℤ := 10 ^ 9

/-- `Duration.Round`: the multiple of `m` nearest to `d`, halves away from zero. -/
def roundDuration (d m : ℤ) : ℤ :=
  if m ≤ 0 then d
  else if d < 0 then
    let r := -d.tmod m
    if r + r < m then d + r else d - m + r
  else
    let r := d.tmod m
    if r + r < m then d - r else d + m - r

/-- The conversion of a float to a `Duration` cuts off the fraction. -/
def truncate (x : ℚ) : ℤ := if 0 ≤ x then ⌊x⌋ else ⌈x⌉

/-! ## The window -/

section Window

variable (fl : ℚ → ℚ)

/-- A division, which is none when the divisor is zero. -/
def quotient (a b : ℚ) : Option ℚ := if b = 0 then none else some (fl (a / b))

/-- The fraction of the window, from the start of this bucket, at which one more attempt fits: the
`at` of `throttleWait`. The previous bucket decays as the window slides past it; the current one
becomes the previous one of the next window. -/
def fitsAt (previous current limit : ℚ) : Option ℚ :=
  if fl (current + 1) ≤ limit then
    (quotient fl (fl (fl (limit - current) - 1)) previous).map fun x => fl (1 - x)
  else
    (quotient fl (fl (limit - 1)) current).map fun x => fl (1 + 1 - x)

/-- `throttleWait`: how long until one more attempt fits, or none for a division by zero. -/
def throttleWait (previous current limit elapsed : ℚ) (window : ℤ) : Option ℤ :=
  (fitsAt fl previous current limit).map fun fraction =>
    let wait := truncate (fl (fl (fraction - elapsed) * fl window))
    max (roundDuration wait second) second

/-- `slidingWindow`: the two buckets of a rule at an instant. -/
structure SlidingWindow where
  limit : ThrottleLimit
  current : ℤ
  previous : ℤ
  elapsed : ℚ

/-- An attempt that makes the current bucket `count` fits the limit. -/
def SlidingWindow.Fits (w : SlidingWindow) (count : ℤ) : Prop :=
  fl (fl (fl (max w.previous 0 : ℤ) * fl (1 - w.elapsed)) + fl count) ≤ fl w.limit.limit

instance (w : SlidingWindow) (count : ℤ) : Decidable (w.Fits fl count) :=
  inferInstanceAs (Decidable (_ ≤ _))

/-- `slidingWindow.wait`: how long until an attempt that makes the current bucket `count` fits. -/
def SlidingWindow.wait (w : SlidingWindow) (count : ℤ) : Option ℤ :=
  if w.Fits fl count then some 0
  else throttleWait fl (fl (max w.previous 0 : ℤ)) (fl (count - 1 : ℤ)) (fl w.limit.limit) w.elapsed
    w.limit.window

/-- The index of the bucket an instant is in. -/
def bucketIndex (window now : ℤ) : ℤ := now.tdiv window

/-- How much of its bucket has passed at an instant. -/
def bucketElapsed (window now : ℤ) : ℚ :=
  fl (fl (now - bucketIndex window now * window : ℤ) / fl window)

/-- `throttler.read` at `now`, from the counters of the rule's buckets. -/
def readWindow (limit : ThrottleLimit) (counts : ℤ → ℤ) (now : ℤ) : SlidingWindow where
  limit
  current := counts (bucketIndex limit.window now)
  previous := counts (bucketIndex limit.window now - 1)
  elapsed := bucketElapsed fl limit.window now

theorem second_le_of_throttleWait {previous current limit elapsed : ℚ} {window d : ℤ}
    (h : throttleWait fl previous current limit elapsed window = some d) : second ≤ d := by
  obtain ⟨fraction, -, rfl⟩ := Option.map_eq_some_iff.1 h
  exact le_max_right _ _

/-- A wait of zero says that the attempt fits. -/
theorem SlidingWindow.wait_eq_zero_iff (w : SlidingWindow) (count : ℤ) :
    w.wait fl count = some 0 ↔ w.Fits fl count := by
  unfold SlidingWindow.wait
  split
  · simpa
  · rename_i h
    refine iff_of_false (fun hwait => ?_) h
    have := second_le_of_throttleWait fl hwait
    simp [second] at this

end Window

end Gombit.Auth
