import Mathlib.Algebra.Order.Ring.Int
import Mathlib.Tactic.Ring

/-!
# How long a failed job waits

The backoffs of `jobs/policy.go` and `jobs/worker.go`. A `time.Duration` is an `Int64`, so a doubling
wraps.

* `min_doubling`, `fits_doubling`: a doubling loop that stops in time is exact.
* `backoff_exact`: `Exponential` and `reserveBackoff` are the exponential cut at its maximum, and
  `Jittered` stays between half its delay and the delay.
-/

namespace Gombit.Jobs.Backoff

/-- A loop that doubles `wait` at most `n` times, unless `stop` ends it. -/
def doubling (stop : Int64 → Option Int64) : ℕ → Int64 → Int64
  | 0, wait => wait
  | n + 1, wait => (stop wait).getD (doubling stop n (wait * 2))

/-- No doubling of the loop overflows. -/
def DoublingFits (stop : Int64 → Option Int64) : ℕ → Int64 → Prop
  | 0, _ => True
  | n + 1, wait =>
    stop wait = none → (wait * 2).toInt = wait.toInt * 2 ∧ DoublingFits stop n (wait * 2)

/-- A delay cut at its maximum. -/
def capped (max wait : Int64) : Int64 := if wait > max then max else wait

/-- The loop of `Exponential`: its condition, and the branch that breaks. -/
def exponentialStop (max wait : Int64) : Option Int64 :=
  if wait < max then if wait > max / 2 then some max else none else some wait

/-- `Exponential`. -/
def exponential (base max : Int64) (attempt : ℕ) : Int64 :=
  capped max (doubling (exponentialStop max) (attempt - 1) base)

/-- Thirty seconds. -/
def maxReserveBackoff : Int64 := 30000000000

/-- The loop of `reserveBackoff`: its condition. -/
def reserveStop (wait : Int64) : Option Int64 := if wait < maxReserveBackoff then none else some wait

def reserveBackoff (poll : Int64) (failures : ℕ) : Int64 :=
  capped maxReserveBackoff (doubling reserveStop (failures - 1) poll)

/-- `Jittered`, for what `rand.Int64N` draws. -/
def jittered (int64N : Int64 → Int64) (b : ℕ → Int64) (attempt : ℕ) : Int64 :=
  let d := b attempt
  if d ≤ 1 then d
  else
    let half := d / 2
    half + int64N (d - half + 1)

theorem toInt_capped (max wait : Int64) :
    (capped max wait).toInt = min wait.toInt max.toInt := by
  unfold capped
  split
  · rename_i h
    rw [gt_iff_lt, Int64.lt_iff_toInt_lt] at h
    omega
  · rename_i h
    rw [gt_iff_lt, Int64.lt_iff_toInt_lt] at h
    omega

theorem bmod_eq {x : ℤ} (h₀ : 0 ≤ x) (h : x < 2 ^ 63) : x.bmod (2 ^ 64) = x :=
  Int.bmod_eq_of_le (by simp; omega) (by simp; omega)

theorem toInt_mul_two {w : Int64} (h₀ : 0 ≤ w.toInt) (h : w.toInt * 2 < 2 ^ 63) :
    (w * 2).toInt = w.toInt * 2 := by
  rw [Int64.toInt_mul]
  exact bmod_eq (x := w.toInt * 2) (by omega) h

/-- A loop that doubles up to `max` goes on while it can, and stops where doubling passes `max`. -/
structure StopsAt (stop : Int64 → Option Int64) (max : Int64) : Prop where
  goes : ∀ w, 0 ≤ w.toInt → stop w = none → w.toInt * 2 < 2 ^ 63
  stops : ∀ w v, 0 ≤ w.toInt → stop w = some v → max.toInt ≤ v.toInt ∧ max.toInt ≤ w.toInt * 2

section

variable {stop : Int64 → Option Int64} {max : Int64} (h : StopsAt stop max)

include h

theorem fits_doubling (n : ℕ) {w : Int64} (hw : 0 ≤ w.toInt) : DoublingFits stop n w := by
  induction n generalizing w with
  | zero => trivial
  | succ n ih =>
    intro hstop
    have htwice := toInt_mul_two hw (h.goes w hw hstop)
    exact ⟨htwice, ih (by omega)⟩

/-- **The loop is exact**, up to its maximum. -/
theorem min_doubling (n : ℕ) {w : Int64} (hw : 0 ≤ w.toInt) :
    min (doubling stop n w).toInt max.toInt = min (w.toInt * 2 ^ n) max.toInt := by
  induction n generalizing w with
  | zero => simp [doubling]
  | succ n ih =>
    have hpow : w.toInt * 2 ^ (n + 1) = w.toInt * 2 * 2 ^ n := by ring
    rw [doubling, hpow]
    cases hstop : stop w with
    | none =>
      have htwice := toInt_mul_two hw (h.goes w hw hstop)
      rw [Option.getD_none, ih (by omega), htwice]
    | some v =>
      obtain ⟨hv, hmax⟩ := h.stops w v hw hstop
      have hle : w.toInt * 2 ≤ w.toInt * 2 * 2 ^ n :=
        le_mul_of_one_le_right (by omega) (one_le_pow₀ (by norm_num))
      rw [Option.getD_some, min_eq_right hv, min_eq_right (hmax.trans hle)]

end

theorem toInt_div_two {w : Int64} (hw : 0 ≤ w.toInt) : (w / 2).toInt = w.toInt / 2 := by
  have hlt := w.toInt_lt
  have htwo : w.toInt.tdiv (2 : Int64).toInt = w.toInt / 2 := Int.tdiv_eq_ediv_of_nonneg hw
  rw [Int64.toInt_div, htwo, bmod_eq (by omega) (by omega)]

theorem stopsAt_exponential (max : Int64) : StopsAt (exponentialStop max) max := by
  have hmax := max.toInt_lt
  constructor
  · intro w hw hstop
    unfold exponentialStop at hstop
    split_ifs at hstop with hlt hhalf
    rw [Int64.lt_iff_toInt_lt] at hlt
    rw [gt_iff_lt, Int64.lt_iff_toInt_lt, toInt_div_two (by omega)] at hhalf
    omega
  · intro w v hw hstop
    unfold exponentialStop at hstop
    split_ifs at hstop with hlt hhalf
    · rw [Int64.lt_iff_toInt_lt] at hlt
      rw [gt_iff_lt, Int64.lt_iff_toInt_lt, toInt_div_two (by omega)] at hhalf
      cases hstop
      omega
    · rw [Int64.lt_iff_toInt_lt] at hlt
      cases hstop
      omega

theorem stopsAt_reserve : StopsAt reserveStop maxReserveBackoff := by
  have hmax : maxReserveBackoff.toInt = 30000000000 := by decide
  constructor
  · intro w hw hstop
    unfold reserveStop at hstop
    split_ifs at hstop with hlt
    rw [Int64.lt_iff_toInt_lt] at hlt
    omega
  · intro w v hw hstop
    unfold reserveStop at hstop
    split_ifs at hstop with hlt
    rw [Int64.lt_iff_toInt_lt] at hlt
    cases hstop
    omega

theorem toInt_exponential {base : Int64} (hbase : 0 ≤ base.toInt) (max : Int64) (attempt : ℕ) :
    (exponential base max attempt).toInt = min (base.toInt * 2 ^ (attempt - 1)) max.toInt := by
  rw [exponential, toInt_capped, min_doubling (stopsAt_exponential max) _ hbase]

/-- What `rand.Int64N` promises. -/
def Draws (int64N : Int64 → Int64) : Prop :=
  ∀ n : Int64, 0 < n.toInt → 0 ≤ (int64N n).toInt ∧ (int64N n).toInt < n.toInt

variable {int64N : Int64 → Int64}

/-- A jittered delay is between half of it and all of it. -/
theorem jittered_bounds (hdraw : Draws int64N) {b : ℕ → Int64}
    {attempt : ℕ} (hd : 1 < (b attempt).toInt) :
    (b attempt).toInt / 2 ≤ (jittered int64N b attempt).toInt ∧
      (jittered int64N b attempt).toInt ≤ (b attempt).toInt := by
  unfold jittered
  generalize b attempt = d at hd ⊢
  have hlt := d.toInt_lt
  have hhalf := toInt_div_two (show 0 ≤ d.toInt by omega)
  have hone : (1 : Int64).toInt = 1 := by decide
  have hsub : (d - d / 2).toInt = d.toInt - d.toInt / 2 := by
    rw [Int64.toInt_sub, hhalf, bmod_eq (by omega) (by omega)]
  have hn : (d - d / 2 + 1).toInt = d.toInt - d.toInt / 2 + 1 := by
    rw [Int64.toInt_add, hsub, hone, bmod_eq (by omega) (by omega)]
  obtain ⟨hlow, hhigh⟩ := hdraw (d - d / 2 + 1) (by omega)
  have hsum : (d / 2 + int64N (d - d / 2 + 1)).toInt =
      d.toInt / 2 + (int64N (d - d / 2 + 1)).toInt := by
    rw [Int64.toInt_add, hhalf, bmod_eq (by omega) (by omega)]
  rw [if_neg (by rw [Int64.le_iff_toInt_le, hone]; omega)]
  dsimp only
  omega

/-- **The backoffs are exact**: `Exponential` and `reserveBackoff` double without an overflow and are
cut at their maximum. -/
theorem backoff_exact (base max poll : Int64) (attempt : ℕ) (b : ℕ → Int64) (hbase : 0 ≤ base)
    (hpoll : 0 ≤ poll) (hdraw : Draws int64N) :
    (exponential base max attempt).toInt = min (base.toInt * 2 ^ (attempt - 1)) max.toInt ∧
    DoublingFits (exponentialStop max) (attempt - 1) base ∧
    (∀ later, attempt ≤ later → exponential base max attempt ≤ exponential base max later) ∧
    (reserveBackoff poll attempt).toInt =
      min (poll.toInt * 2 ^ (attempt - 1)) maxReserveBackoff.toInt ∧
    DoublingFits reserveStop (attempt - 1) poll ∧
    (1 < b attempt → (b attempt).toInt / 2 ≤ (jittered int64N b attempt).toInt ∧
      (jittered int64N b attempt).toInt ≤ (b attempt).toInt) := by
  rw [Int64.le_iff_toInt_le] at hbase hpoll
  refine ⟨toInt_exponential hbase max attempt, fits_doubling (stopsAt_exponential max) _ hbase,
    fun later hle => ?_, ?_, fits_doubling stopsAt_reserve _ hpoll, fun hd => ?_⟩
  · rw [Int64.le_iff_toInt_le, toInt_exponential hbase, toInt_exponential hbase]
    gcongr
    norm_num
  · rw [reserveBackoff, toInt_capped, min_doubling stopsAt_reserve _ hpoll]
  · rw [Int64.lt_iff_toInt_lt] at hd
    exact jittered_bounds hdraw hd

/-- The third attempt of `DefaultBackoff` and of a worker that polls every second. -/
theorem backoff_exact_third :
    (exponential 10000000000 600000000000 3).toInt = 40000000000 ∧
      (reserveBackoff 1000000000 3).toInt = 4000000000 := by
  have hdraw : Draws fun _ => 0 := fun n hn => ⟨le_rfl, hn⟩
  obtain ⟨hexp, -, -, hreserve, -⟩ := backoff_exact 10000000000 600000000000 1000000000 3
    (fun _ => 2) (by decide) (by decide) hdraw
  rw [hexp, hreserve]
  decide

end Gombit.Jobs.Backoff
