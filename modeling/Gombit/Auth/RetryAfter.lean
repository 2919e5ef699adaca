import Gombit.Auth.Throttle

/-!
# The wait a refused attempt is told

A refused attempt is told to come back after whole seconds. In exact arithmetic the wait is the time
until the attempt fits, and `throttleWait` rounds it to the nearest second: an attempt that waits as
told fits exactly when that rounding did not go down.

* `bucketElapsed_add`: the bucket of a later instant and how far into it the instant is.
* `attempt_later_iff`: when the attempt fits, across the end of its bucket.
* `exactWait_le_iff`: when the rounded wait is long enough.
* `attempt_retryAfter_iff`: the attempt made after the wait it was told.
-/

namespace Gombit.Auth

/-- `throttleRetryAfterSeconds`. -/
def throttleRetryAfterSeconds (retryAfter : ℤ) : ℤ := max ⌈(retryAfter : ℚ) / second⌉ 1

/-- The counters of a subject whose attempts are all in the bucket `index` and the one before. -/
def countsOf (index previous current : ℤ) (i : ℤ) : ℤ :=
  if i = index then current else if i = index - 1 then previous else 0

theorem countsOf_self (i previous current : ℤ) : countsOf i previous current i = current :=
  if_pos rfl

theorem countsOf_before (i previous current : ℤ) :
    countsOf i previous current (i - 1) = previous := by
  rw [countsOf, if_neg (by omega), if_pos rfl]

theorem countsOf_after {i j : ℤ} (h : i < j) (previous current : ℤ) :
    countsOf i previous current j = 0 := by
  rw [countsOf, if_neg (by omega), if_neg (by omega)]

/-- The wait an attempt at `now` is told, in exact arithmetic: zero when it is accepted. -/
def attempt (limit : ThrottleLimit) (counts : ℤ → ℤ) (now : ℤ) : Option ℤ :=
  let w := readWindow id limit counts now
  w.wait id (w.current + 1)

/-- The fraction of the window, from the start of the bucket, at which one more attempt fits. -/
def exactFraction (limit : ThrottleLimit) (previous current : ℤ) : ℚ :=
  if current + 1 ≤ limit.limit then 1 - (limit.limit - current - 1) / previous
  else 2 - (limit.limit - 1) / current

/-- The nanoseconds from `now` until one more attempt fits. -/
def exactWait (limit : ThrottleLimit) (previous current now : ℤ) : ℚ :=
  (exactFraction limit previous current - bucketElapsed id limit.window now) * limit.window

/-- A wait that is not rounded down: under a second, half a second or more past a whole one, or
whole seconds exactly. -/
def NotRoundedDown (wait : ℚ) : Prop :=
  ⌊wait⌋ < second ∨ second ≤ 2 * (⌊wait⌋ % second) ∨ (⌊wait⌋ : ℚ) = wait ∧ ⌊wait⌋ % second = 0

instance (wait : ℚ) : Decidable (NotRoundedDown wait) :=
  inferInstanceAs (Decidable (_ ∨ _ ∨ _))

/-! ## Buckets -/

section Buckets

variable {window : ℤ} (hwindow : 0 < window)

include hwindow

/-- An instant is its bucket's start and the part of the bucket that has passed. -/
theorem bucketElapsed_mul (now : ℕ) :
    bucketElapsed id window now * window = now - bucketIndex window now * window := by
  have hne : (window : ℚ) ≠ 0 := by exact_mod_cast hwindow.ne'
  simp only [bucketElapsed, id_eq, Int.cast_sub, Int.cast_mul, Int.cast_natCast]
  field_simp

theorem bucketElapsed_nonneg (now : ℕ) : 0 ≤ bucketElapsed id window now := by
  have hle : bucketIndex window now * window ≤ now := by
    rw [bucketIndex, Int.tdiv_eq_ediv_of_nonneg (by omega)]
    exact Int.ediv_mul_le _ hwindow.ne'
  have hpos : (0 : ℚ) < window := by exact_mod_cast hwindow
  exact div_nonneg (Int.cast_nonneg (sub_nonneg.2 hle)) hpos.le

theorem bucketElapsed_lt (now : ℕ) : bucketElapsed id window now < 1 := by
  have hlt : (now : ℤ) - bucketIndex window now * window < window := by
    rw [bucketIndex, Int.tdiv_eq_ediv_of_nonneg (by omega)]
    have := Int.lt_ediv_add_one_mul_self (now : ℤ) hwindow
    linarith
  have hpos : (0 : ℚ) < window := by exact_mod_cast hwindow
  exact (div_lt_one hpos).2 (Int.cast_lt.2 hlt)

/-- The part of the later bucket that has passed. -/
theorem bucketElapsed_add (now later : ℕ) :
    bucketElapsed id window (now + later : ℕ) = bucketElapsed id window now + later / window -
      (bucketIndex window (now + later : ℕ) - bucketIndex window now) := by
  have hpos : (0 : ℚ) < window := by exact_mod_cast hwindow
  have hnow := bucketElapsed_mul hwindow now
  have hlater := bucketElapsed_mul hwindow (now + later)
  push_cast at hlater ⊢
  refine mul_right_cancel₀ hpos.ne' ?_
  rw [hlater, sub_mul, add_mul, hnow, div_mul_cancel₀ _ hpos.ne']
  ring

end Buckets

/-! ## When one more attempt fits -/

/-- An accepted attempt, in terms of the two buckets it reads. -/
theorem attempt_eq_zero_iff (limit : ThrottleLimit) (counts : ℤ → ℤ) (now : ℤ) :
    attempt limit counts now = some 0 ↔
      (max (counts (bucketIndex limit.window now - 1)) 0 : ℤ) *
        (1 - bucketElapsed id limit.window now) + (counts (bucketIndex limit.window now) + 1 : ℤ) ≤
      (limit.limit : ℚ) :=
  SlidingWindow.wait_eq_zero_iff id _ _

section Wait

variable {limit : ThrottleLimit} {previous current : ℤ} {now : ℕ}

/-- The two divisors of `throttleWait`: an attempt is refused for a previous bucket that is not
empty, or for a current one that is full. -/
theorem refused_cases (hlimit : 1 ≤ limit.limit) (hprevious : 0 ≤ previous)
    (hrefused : attempt limit (countsOf (bucketIndex limit.window now) previous current) now ≠
      some 0) :
    current + 1 ≤ limit.limit ∧ 0 < previous ∨ limit.limit < current + 1 ∧ 0 < current := by
  rcases le_or_gt (current + 1) limit.limit with hle | hgt
  · refine Or.inl ⟨hle, hprevious.lt_of_ne fun hzero => hrefused ?_⟩
    rw [attempt_eq_zero_iff]
    rw [countsOf_self, countsOf_before, ← hzero]
    simpa using (by exact_mod_cast hle : ((current + 1 : ℤ) : ℚ) ≤ limit.limit)
  · exact Or.inr ⟨hgt, by omega⟩

/-- The fraction, for a current bucket with room: what is left of the previous one fits. -/
theorem exactFraction_le_iff_of_room {x : ℚ} (hroom : current + 1 ≤ limit.limit)
    (hprevious : 0 < previous) :
    exactFraction limit previous current ≤ x ↔
      previous * (1 - x) + (current + 1 : ℤ) ≤ (limit.limit : ℚ) := by
  have hpos : (0 : ℚ) < previous := by exact_mod_cast hprevious
  rw [exactFraction, if_pos hroom, sub_le_comm, le_div_iff₀ hpos]
  push_cast
  constructor <;> intro h <;> linarith

/-- The fraction, for a full current bucket: what is left of it in the next window fits. -/
theorem exactFraction_le_iff_of_full {x : ℚ} (hfull : limit.limit < current + 1)
    (hcurrent : 0 < current) :
    exactFraction limit previous current ≤ x ↔
      current * (1 - (x - 1)) + (0 + 1 : ℤ) ≤ (limit.limit : ℚ) := by
  have hpos : (0 : ℚ) < current := by exact_mod_cast hcurrent
  rw [exactFraction, if_neg (by omega), sub_le_comm, le_div_iff₀ hpos]
  push_cast
  constructor <;> intro h <;> linarith

/-- The fraction is in this bucket exactly when the current bucket has room. -/
theorem exactFraction_le_one (hroom : current + 1 ≤ limit.limit) (hprevious : 0 < previous) :
    exactFraction limit previous current ≤ 1 := by
  rw [exactFraction_le_iff_of_room hroom hprevious, sub_self, mul_zero, zero_add]
  exact_mod_cast hroom

theorem one_lt_exactFraction (hfull : limit.limit < current + 1) (hcurrent : 0 < current)
    (previous : ℤ) :
    1 < exactFraction limit previous current := by
  rw [← not_le, exactFraction_le_iff_of_full hfull hcurrent, not_le, sub_self, sub_zero, mul_one]
  push_cast
  exact_mod_cast (by omega : limit.limit < current + (0 + 1))

theorem exactFraction_le_two (hlimit : 1 ≤ limit.limit) (hfull : limit.limit < current + 1)
    (hcurrent : 0 < current) (previous : ℤ) : exactFraction limit previous current ≤ 2 := by
  rw [exactFraction_le_iff_of_full hfull hcurrent]
  norm_num
  exact_mod_cast hlimit

section Refused

variable (hlimit : 1 ≤ limit.limit) (hwindow : 0 < limit.window) (hprevious : 0 ≤ previous)
  (hcurrent : 0 ≤ current)
  (hrefused : attempt limit (countsOf (bucketIndex limit.window now) previous current) now ≠ some 0)

include hlimit hwindow hprevious hcurrent hrefused

/-- **When a refused attempt fits.** Nothing else counted, it fits from the instant at which the
fraction is reached, in this bucket or in the next. -/
theorem attempt_later_iff (later : ℕ) :
    attempt limit (countsOf (bucketIndex limit.window now) previous current) (now + later : ℕ) =
        some 0 ↔
      exactFraction limit previous current ≤
        bucketElapsed id limit.window now + later / limit.window := by
  have hcases := refused_cases hlimit hprevious hrefused
  have hadd := bucketElapsed_add hwindow now later
  have hlow := bucketElapsed_nonneg hwindow (now + later)
  have hhigh := bucketElapsed_lt hwindow (now + later)
  have hpassed : 0 ≤ bucketElapsed id limit.window now + later / limit.window :=
    add_nonneg (bucketElapsed_nonneg hwindow now) (by positivity)
  have hp : (0 : ℚ) ≤ previous := by exact_mod_cast hprevious
  have hc : (0 : ℚ) ≤ current := by exact_mod_cast hcurrent
  rw [attempt_eq_zero_iff]
  generalize bucketElapsed id limit.window now + later / limit.window = x at *
  generalize bucketElapsed id limit.window (now + later : ℕ) = e at *
  obtain ⟨k, hk⟩ : ∃ k, bucketIndex limit.window (now + later : ℕ) =
    bucketIndex limit.window now + k := ⟨_, (add_sub_cancel _ _).symm⟩
  rw [hk] at hadd ⊢
  push_cast at hadd
  rw [add_sub_cancel_left] at hadd
  have hk0 : -1 < k := by
    have : (-1 : ℚ) < k := by linarith
    exact_mod_cast this
  rcases (by omega : k = 0 ∨ k = 1 ∨ 2 ≤ k) with rfl | rfl | hk2
  · -- the same bucket
    have hx : e = x := by simpa using hadd
    rw [add_zero, countsOf_self, countsOf_before, max_eq_left hprevious, hx]
    rcases hcases with ⟨hroom, hpos⟩ | ⟨hfull, hpos⟩
    · exact (exactFraction_le_iff_of_room hroom hpos).symm
    · refine iff_of_false ?_ ?_
      · have hlt : (limit.limit : ℚ) < (current + 1 : ℤ) := by exact_mod_cast hfull
        have hrest : 0 ≤ (previous : ℚ) * (1 - x) := mul_nonneg hp (by linarith)
        linarith
      · have := one_lt_exactFraction hfull hpos previous
        linarith
  · -- the next bucket, in which the current one is the previous
    have hx : e = x - 1 := by simpa using hadd
    rw [add_sub_cancel_right, countsOf_self, countsOf_after (Int.lt_succ _), max_eq_left hcurrent,
      hx]
    rcases hcases with ⟨hroom, hpos⟩ | ⟨hfull, hpos⟩
    · refine iff_of_true ?_ ?_
      · have hle : ((current + 1 : ℤ) : ℚ) ≤ limit.limit := by exact_mod_cast hroom
        have hrest : (current : ℚ) * (1 - (x - 1)) ≤ current * 1 :=
          mul_le_mul_of_nonneg_left (by linarith) hc
        push_cast at hle ⊢
        linarith
      · have := exactFraction_le_one hroom hpos
        linarith
    · exact (exactFraction_le_iff_of_full hfull hpos).symm
  · -- a later one: both buckets are empty
    rw [countsOf_after (by omega), countsOf_after (by omega)]
    have hkq : (2 : ℚ) ≤ k := by exact_mod_cast hk2
    refine iff_of_true ?_ ?_
    · norm_num
      exact_mod_cast hlimit
    · rcases hcases with ⟨hroom, hpos⟩ | ⟨hfull, hpos⟩
      · have := exactFraction_le_one hroom hpos
        linarith
      · have := exactFraction_le_two hlimit hfull hpos previous
        linarith

/-- A refused attempt has some time to wait. -/
theorem exactWait_pos : 0 < exactWait limit previous current now := by
  have hnow := (attempt_later_iff hlimit hwindow hprevious hcurrent hrefused 0).not.1 hrefused
  rw [Nat.cast_zero, zero_div, add_zero, not_le] at hnow
  exact mul_pos (sub_pos.2 hnow) (by exact_mod_cast hwindow)

/-- **The wait of a refused attempt.** No division is by zero, and the exact wait, cut to
nanoseconds, is rounded to seconds. -/
theorem attempt_eq_of_refused :
    attempt limit (countsOf (bucketIndex limit.window now) previous current) now =
      some (max (roundDuration ⌊exactWait limit previous current now⌋ second) second) := by
  have hpos := exactWait_pos hlimit hwindow hprevious hcurrent hrefused
  have hfraction : fitsAt id previous current limit.limit =
      some (exactFraction limit previous current) := by
    rcases refused_cases hlimit hprevious hrefused with ⟨hroom, hne⟩ | ⟨hfull, hne⟩
    · have hroom' : (current : ℚ) + 1 ≤ limit.limit := by exact_mod_cast hroom
      have hne' : (previous : ℚ) ≠ 0 := by exact_mod_cast hne.ne'
      simp [fitsAt, quotient, exactFraction, hroom, hroom', hne']
    · have hfull' : ¬ (current : ℚ) + 1 ≤ limit.limit := by exact_mod_cast not_le.2 hfull
      have hne' : (current : ℚ) ≠ 0 := by exact_mod_cast hne.ne'
      simp [fitsAt, quotient, exactFraction, not_le.2 hfull, hfull', hne']
      norm_num
  refine (if_neg ((SlidingWindow.wait_eq_zero_iff id _ _).not.1 hrefused)).trans ?_
  simp only [readWindow, countsOf_self, countsOf_before, max_eq_left hprevious, id_eq,
    add_sub_cancel_right, throttleWait, hfraction, Option.map_some]
  have htruncate : truncate (exactWait limit previous current now) =
      ⌊exactWait limit previous current now⌋ := if_pos hpos.le
  rw [← htruncate]
  rfl

end Refused

end Wait

/-! ## Rounding -/

/-- A wait is rounded down when less than half a second is over, and up otherwise. -/
theorem roundDuration_second {d : ℤ} (h : 0 ≤ d) :
    roundDuration d second =
      if 2 * (d % second) < second then second * (d / second) else second * (d / second + 1) := by
  have hmod : d.tmod second = d % second := Int.tmod_eq_emod_of_nonneg h
  have hdiv := Int.emod_add_mul_ediv d second
  rw [roundDuration, if_neg (by decide), if_neg (by omega), hmod]
  dsimp only
  rw [← two_mul]
  split <;> linarith

/-- The wait that is told, as whole seconds. -/
theorem throttleRetryAfterSeconds_mul {d : ℤ} (h : 0 ≤ d) :
    1 ≤ throttleRetryAfterSeconds (max (roundDuration d second) second) ∧
      second * throttleRetryAfterSeconds (max (roundDuration d second) second) =
        max (roundDuration d second) second := by
  obtain ⟨r, hr, hmax⟩ : ∃ r, 1 ≤ r ∧ max (roundDuration d second) second = second * r := by
    have hpos : 0 < second := by decide
    obtain ⟨q, hq⟩ : ∃ q, roundDuration d second = second * q := by
      rw [roundDuration_second h]
      split
      · exact ⟨_, rfl⟩
      · exact ⟨_, rfl⟩
    rcases le_or_gt 1 q with hle | hlt
    · exact ⟨q, hle, by rw [hq]; exact max_eq_left (by nlinarith)⟩
    · exact ⟨1, le_rfl, by rw [hq, mul_one]; exact max_eq_right (by nlinarith)⟩
  have hseconds : throttleRetryAfterSeconds (second * r) = r := by
    have hne : (second : ℚ) ≠ 0 := by exact_mod_cast (by decide : second ≠ 0)
    rw [throttleRetryAfterSeconds, Int.cast_mul, mul_div_cancel_left₀ _ hne, Int.ceil_intCast]
    exact max_eq_left hr
  rw [hmax, hseconds]
  exact ⟨hr, rfl⟩

/-- **When the rounded wait is long enough.** -/
theorem exactWait_le_iff {wait : ℚ} (h : 0 < wait) :
    wait ≤ (max (roundDuration ⌊wait⌋ second) second : ℤ) ↔ NotRoundedDown wait := by
  have hfloor : 0 ≤ ⌊wait⌋ := Int.floor_nonneg.2 h.le
  have hle : (⌊wait⌋ : ℚ) ≤ wait := Int.floor_le wait
  have hlt : wait < ⌊wait⌋ + 1 := Int.lt_floor_add_one wait
  have hceil : ∀ {n : ℤ}, ⌊wait⌋ < n → wait ≤ n := fun {n} hn => by
    have : ((⌊wait⌋ + 1 : ℤ) : ℚ) ≤ n := by exact_mod_cast hn
    push_cast at this
    linarith
  have hmod := Int.emod_add_mul_ediv ⌊wait⌋ second
  have hmod_lt : ⌊wait⌋ % second < second := Int.emod_lt_of_pos _ (by decide)
  have hmod_nonneg : 0 ≤ ⌊wait⌋ % second := Int.emod_nonneg _ (by decide)
  unfold NotRoundedDown
  rw [roundDuration_second hfloor]
  rcases lt_or_ge ⌊wait⌋ second with hsmall | hbig
  · exact iff_of_true (hceil (hsmall.trans_le (le_max_right _ _))) (Or.inl hsmall)
  rcases lt_or_ge (2 * (⌊wait⌋ % second)) second with hdown | hup
  · rw [if_pos hdown]
    have hone : 1 ≤ ⌊wait⌋ / second := (Int.le_ediv_iff_mul_le (by decide)).2 (by linarith)
    rw [max_eq_left (by nlinarith [(by decide : 0 < second)])]
    constructor
    · intro hwait
      have hq : ⌊wait⌋ ≤ second * (⌊wait⌋ / second) := by exact_mod_cast hle.trans hwait
      have hzero : ⌊wait⌋ % second = 0 := by omega
      refine Or.inr (Or.inr ⟨le_antisymm hle ?_, hzero⟩)
      rw [hzero, zero_add] at hmod
      rwa [hmod] at hwait
    · rintro (hlow | hhalf | ⟨heq, hzero⟩)
      · omega
      · omega
      · rw [hzero, zero_add] at hmod
        rw [hmod, heq]
  · rw [if_neg (by omega)]
    refine iff_of_true (hceil (lt_max_of_lt_left ?_)) (Or.inr (Or.inl hup))
    linarith

/-! ## The attempt made after the wait -/

/-- **What the wait of a refused attempt is worth.** The refused attempt is told a wait, of at least
a second and without a division by zero; the attempt made after it, when nothing else was counted,
is accepted exactly when the wait was not rounded down. -/
theorem attempt_retryAfter_iff (limit : ThrottleLimit) (hlimit : 1 ≤ limit.limit) {seconds : ℤ}
    (hseconds : 1 ≤ seconds) (hwindow : limit.window = seconds * second) (previous current : ℤ)
    (hprevious : 0 ≤ previous) (hcurrent : 0 ≤ current) (now : ℕ)
    (hrefused : attempt limit (countsOf (bucketIndex limit.window now) previous current) now ≠
      some 0) :
    ∃ wait, attempt limit (countsOf (bucketIndex limit.window now) previous current) now =
        some wait ∧ 1 ≤ throttleRetryAfterSeconds wait ∧
      (attempt limit (countsOf (bucketIndex limit.window now) previous current)
          (now + second * throttleRetryAfterSeconds wait) = some 0 ↔
        NotRoundedDown (exactWait limit previous current now)) := by
  have hpos : 0 < limit.window := by
    rw [hwindow]
    exact mul_pos (by omega) (by decide)
  have hposq : (0 : ℚ) < limit.window := by exact_mod_cast hpos
  have hwait := exactWait_pos hlimit hpos hprevious hcurrent hrefused
  have hfloor : 0 ≤ ⌊exactWait limit previous current now⌋ := Int.floor_nonneg.2 hwait.le
  obtain ⟨hone, hmul⟩ := throttleRetryAfterSeconds_mul hfloor
  refine ⟨_, attempt_eq_of_refused hlimit hpos hprevious hcurrent hrefused, hone, ?_⟩
  rw [hmul, ← exactWait_le_iff hwait]
  obtain ⟨later, hlater⟩ := Int.eq_ofNat_of_zero_le
    (le_max_of_le_right (by decide : 0 ≤ second) :
      0 ≤ max (roundDuration ⌊exactWait limit previous current now⌋ second) second)
  rw [hlater]
  have hiff := attempt_later_iff hlimit hpos hprevious hcurrent hrefused later
  rw [Nat.cast_add] at hiff
  rw [hiff, exactWait, ← le_div_iff₀ hposq, sub_le_iff_le_add']
  rfl

/-- A limit of one attempt in ten seconds. The attempt 0.7 s into a bucket that holds one fits
19.3 s later. It is told 19 s, and refused again then. -/
theorem told_too_early :
    attempt ⟨1, 10 * second⟩ (countsOf 0 0 1) 700000000 = some (19 * second) ∧
      throttleRetryAfterSeconds (19 * second) = 19 ∧
      attempt ⟨1, 10 * second⟩ (countsOf 0 0 1) (700000000 + second * 19) = some second := by
  decide +kernel

/-- A limit of one attempt in ten seconds, 0.4 s into the bucket: told 20 s, 0.4 s more than it
takes. -/
theorem told_late_enough :
    ∃ wait, attempt ⟨1, 10 * second⟩ (countsOf (bucketIndex (10 * second) (400000000 : ℕ)) 0 1)
        (400000000 : ℕ) = some wait ∧ 1 ≤ throttleRetryAfterSeconds wait ∧
      (attempt ⟨1, 10 * second⟩ (countsOf (bucketIndex (10 * second) (400000000 : ℕ)) 0 1)
          ((400000000 : ℕ) + second * throttleRetryAfterSeconds wait) = some 0 ↔
        NotRoundedDown (exactWait ⟨1, 10 * second⟩ 0 1 (400000000 : ℕ))) :=
  attempt_retryAfter_iff ⟨1, 10 * second⟩ (by decide) (by decide : (1 : ℤ) ≤ 10) rfl 0 1 (by decide)
    (by decide) 400000000 (by decide +kernel)

end Gombit.Auth
