import Gombit.Foundations.Doubles
import Gombit.Foundations.Run
import Gombit.Auth.Throttle

/-!
# The places of concurrent attempts

`reserve` reads every rule's window, then counts the attempt in each, and takes back what it counted
when a rule went over meanwhile; `refund` gives the places of a reservation back. Calls of both
interleave in any way: each read, each increment and each decrement is a step of its own, at any
reading of the clock.

A place is held from the increment that was accepted to its decrement. A step changes the counter of
a bucket and what its call holds there together (`Effect`), so that

* `Tallied`: a counter is the number of places held in its bucket and of those to be taken back;
* `Bounded`: the places of one rule in one bucket are at most its limit, since a place is accepted
  only when the counter, which counts them all, is at most the limit;
* `places_of_run`: both, after any run.

The comparison is between floats, so the bound needs a limit below `2 ^ 53`:
`place_past_the_limit`.
-/

namespace Gombit.Auth.Places

open List

/-- A rule that is on, with a subject: the ones `reserve` counts in. -/
structure ActiveRule extends ThrottleRule where
  on : limit.on = true
  named : subject ≠ ""
deriving DecidableEq

/-- The rules `reserve` keeps of those it is given. -/
def active (rules : List ThrottleRule) : List ActiveRule :=
  rules.filterMap fun rule =>
    if h : rule.limit.on = true ∧ rule.subject ≠ "" then some ⟨rule, h.1, h.2⟩ else none

/-- `reservedKey`: a place in a bucket of a rule, of which the source keeps the name. -/
structure ReservedKey where
  rule : ActiveRule
  key : String
deriving DecidableEq

/-- The counters of the cache. -/
abbrev Counters := String → Option ℤ

namespace Counters

/-- What `Get` loads into a count that is zero. -/
def get (store : Counters) (key : String) : ℤ := (store key).getD 0

/-- `IncrementTTL` by one. -/
def increment (store : Counters) (key : String) : Counters :=
  Function.update store key (some (store.get key + 1))

/-- `DecrementExisting` by one. -/
def decrementExisting (store : Counters) (key : String) : Counters :=
  Function.update store key ((store key).map (· - 1))

theorem get_increment_self (store : Counters) (key : String) :
    (store.increment key).get key = store.get key + 1 := by
  simp [increment, get]

theorem get_increment_ne (store : Counters) {key k : String} (h : k ≠ key) :
    (store.increment key).get k = store.get k := by
  simp [increment, get, h]

end Counters

/-! ## The calls -/

/-- Where a call of `reserve` or `refundExcept` is. -/
inductive Stage where
  /-- The rules still to read, and those read with the count of their previous bucket. -/
  | reading (rules : List ActiveRule) (read : List (ActiveRule × ℤ))
  /-- The current bucket of a rule is read, its previous one is next. -/
  | readingPrevious (rule : ActiveRule) (window : SlidingWindow) (previousKey : String)
      (rules : List ActiveRule) (read : List (ActiveRule × ℤ))
  /-- The rules still to count in, and the places taken. -/
  | taking (rules : List (ActiveRule × ℤ)) (keys : List ReservedKey)
  /-- The last increment went over its limit and is taken back next. -/
  | undoing (excess : ReservedKey) (keys : List ReservedKey) (wait : Option ℤ)
  /-- A refused attempt gives the places it took back. -/
  | givingBack (keys : List ReservedKey) (rule : RuleName) (wait : Option ℤ)
  /-- `reserve` returned a reservation. -/
  | returned (keys : List ReservedKey)
  /-- `reserve` returned a `ThrottleError`. -/
  | refused (rule : RuleName) (wait : Option ℤ)
  /-- `refundExcept` has these places still to go through, and kept those. -/
  | refunding (keys : List ReservedKey) (except : Option RuleName) (kept : List ReservedKey)
  /-- `refundExcept` returned, with these places not refunded. -/
  | refunded (kept : List ReservedKey)

namespace Stage

/-- No call is running. -/
def idle : Stage → Bool
  | .returned _ => true
  | .refused _ _ => true
  | .refunded _ => true
  | _ => false

/-- The accepted places that are not refunded. -/
def held : Stage → List ReservedKey
  | .reading _ _ => []
  | .readingPrevious _ _ _ _ _ => []
  | .taking _ keys => keys
  | .undoing _ keys _ => keys
  | .givingBack keys _ _ => keys
  | .returned keys => keys
  | .refused _ _ => []
  | .refunding keys _ kept => keys ++ kept
  | .refunded kept => kept

/-- The increment that was not accepted and is not taken back. -/
def excess : Stage → List ReservedKey
  | .undoing key _ _ => [key]
  | _ => []

end Stage

section Model

variable (fl : ℚ → ℚ) (digest : String → String)

/-- `throttleKeyBase`, with the hash of a text as a parameter. -/
def throttleKeyBase (rule : ThrottleRule) : String :=
  "auth:throttle:" ++ rule.name.text ++ ":" ++
    digest (rule.name.text ++ "\x00" ++ rule.subject) ++ ":"

/-- The key of a bucket of a rule. -/
def bucketKey (rule : ThrottleRule) (index : ℤ) : String :=
  throttleKeyBase digest rule ++ toString index

/-- What a step leads to: where the call is then, the counters, and what it added to which. -/
structure Outcome where
  stage : Stage
  store : Counters
  writes : List (String × ℤ)

/-- `throttler.take`: the increment, and what follows from the count it returns. -/
def take (store : Counters) (now : ℤ) (rule : ActiveRule) (previous : ℤ)
    (rules : List (ActiveRule × ℤ)) (keys : List ReservedKey) : Outcome :=
  let current : ReservedKey :=
    ⟨rule, bucketKey digest rule.toThrottleRule (bucketIndex rule.limit.window now)⟩
  let count := max (store.get current.key + 1) 1
  let w : SlidingWindow :=
    { limit := rule.limit, current := 0, previous, elapsed := bucketElapsed fl rule.limit.window now }
  let wait := w.wait fl count
  { stage := if wait = some 0 then .taking rules (keys ++ [current]) else .undoing current keys wait
    store := store.increment current.key
    writes := [(current.key, 1)] }

/-- `refundKey`. -/
def refundKey (store : Counters) (key : ReservedKey) (next : Stage) : Outcome where
  stage := next
  store := store.decrementExisting key.key
  writes := if (store key.key).isSome then [(key.key, -1)] else []

/-- The next step of a call, with the clock at `now`. -/
def Stage.step (store : Counters) (now : ℤ) : Stage → Option Outcome
  | .reading [] read => some ⟨.taking read [], store, []⟩
  | .reading (rule :: rules) read =>
    let index := bucketIndex rule.limit.window now
    let w : SlidingWindow :=
      { limit := rule.limit
        current := store.get (bucketKey digest rule.toThrottleRule index)
        previous := 0
        elapsed := bucketElapsed fl rule.limit.window now }
    some ⟨.readingPrevious rule w (bucketKey digest rule.toThrottleRule (index - 1)) rules read,
      store, []⟩
  | .readingPrevious rule window previousKey rules read =>
    let w := { window with previous := store.get previousKey }
    let wait := w.wait fl (w.current + 1)
    let next := if wait = some 0 then .reading rules (read ++ [(rule, w.previous)])
      else .refused rule.name wait
    some ⟨next, store, []⟩
  | .taking [] keys => some ⟨.returned keys, store, []⟩
  | .taking ((rule, previous) :: rules) keys =>
    some (take fl digest store now rule previous rules keys)
  | .undoing key keys wait => some (refundKey store key (.givingBack keys key.rule.name wait))
  -- no rule is named "", so that the refund of a refused attempt excepts none
  | .givingBack [] rule wait => some ⟨.refused rule wait, store, []⟩
  | .givingBack (key :: keys) rule wait => some (refundKey store key (.givingBack keys rule wait))
  | .refunding [] _ kept => some ⟨.refunded kept, store, []⟩
  | .refunding (key :: keys) except kept =>
    if some key.rule.name = except then
      some ⟨.refunding keys except (kept ++ [key]), store, []⟩
    else some (refundKey store key (.refunding keys except kept))
  | .returned _ => none
  | .refused _ _ => none
  | .refunded _ => none

/-- A call, with what it added to which counter so far. -/
structure Call where
  stage : Stage
  writes : List (String × ℤ)

structure Throttled where
  store : Counters
  calls : List Call

/-- Nothing counted, no call made. -/
def Throttled.init : Throttled := ⟨fun _ => none, []⟩

/-- What can happen next. -/
inductive Event where
  /-- A request calls `reserve`. -/
  | reserve (rules : List ThrottleRule)
  /-- The `i`-th call takes its next step. -/
  | step (i : ℕ) (now : ℤ)
  /-- The holder of the `i`-th reservation calls `refundExcept`, or `refund`, which excepts none. -/
  | refund (i : ℕ) (except : Option RuleName)

/-- The first stage of a call of `reserve`. -/
def reserve (disabled : Bool) (rules : List ThrottleRule) : Stage :=
  if disabled then .returned [] else .reading (active rules) []

variable (disabled : Bool)

/-- The steps of the calls, in any order. -/
inductive Throttled.Step : Throttled → Event → Throttled → Prop
  | reserve (s : Throttled) (rules : List ThrottleRule) :
      Step s (.reserve rules) ⟨s.store, s.calls ++ [⟨Places.reserve disabled rules, []⟩]⟩
  | step {s : Throttled} {i : ℕ} {now : ℤ} {c : Call} {out : Outcome} (hcall : s.calls[i]? = some c)
      (hstep : c.stage.step fl digest s.store now = some out) :
      Step s (.step i now) ⟨out.store, s.calls.set i ⟨out.stage, c.writes ++ out.writes⟩⟩
  | refund {s : Throttled} {i : ℕ} {except : Option RuleName} {keys : List ReservedKey}
      {writes : List (String × ℤ)} (hcall : s.calls[i]? = some ⟨.returned keys, writes⟩) :
      Step s (.refund i except) ⟨s.store, s.calls.set i ⟨.refunding keys except [], writes⟩⟩

end Model

/-! ## Counting -/

/-- The places of a list in the bucket of a key. -/
def countIn (key : String) (keys : List ReservedKey) : ℕ := keys.countP fun k => k.key = key

/-- What a list of writes adds up to at a key. -/
def balanceOf (key : String) : List (String × ℤ) → ℤ
  | [] => 0
  | (k, delta) :: writes => (if k = key then delta else 0) + balanceOf key writes

/-- The places a call counts for in the bucket of a key. -/
def Stage.taken (st : Stage) (key : String) : ℕ := countIn key st.held + countIn key st.excess

namespace Throttled

/-- The accepted places that are not refunded, of all calls. -/
def held (s : Throttled) : List ReservedKey := s.calls.flatMap fun c => c.stage.held

/-- The increments that were not accepted and are not taken back, of all calls. -/
def excess (s : Throttled) : List ReservedKey := s.calls.flatMap fun c => c.stage.excess

/-- The places held by attempts of one rule, that is of its subject, in the bucket of a key. -/
def places (s : Throttled) (rule : ActiveRule) (key : String) : ℕ := s.held.count ⟨rule, key⟩

/-- The number of increments at a key that are not taken back. -/
def taken (s : Throttled) (key : String) : ℕ := countIn key s.held + countIn key s.excess

/-- No call is running. -/
def Idle (s : Throttled) : Prop := ∀ c ∈ s.calls, c.stage.idle = true

end Throttled

variable {i : ℕ} {s : Throttled} {c : Call}

section Counting

variable {α β : Type*}

/-- A pool in which one member changes. -/
theorem countP_flatMap_set (p : β → Bool) (f : α → List β) {l : List α} {a : α}
    (h : l[i]? = some a) (b : α) :
    ((l.set i b).flatMap f).countP p + (f a).countP p = (l.flatMap f).countP p + (f b).countP p := by
  induction l generalizing i with
  | nil => simp at h
  | cons x l ih =>
    cases i with
    | zero =>
      obtain rfl : x = a := by simpa using h
      simp only [set_cons_zero, flatMap_cons, countP_append]
      omega
    | succ i =>
      have := ih (by simpa using h)
      simp only [set_cons_succ, flatMap_cons, countP_append]
      omega

theorem countP_le_flatMap (p : β → Bool) (f : α → List β) {l : List α} {a : α} (h : a ∈ l) :
    (f a).countP p ≤ (l.flatMap f).countP p := by
  obtain ⟨l₁, l₂, rfl⟩ := append_of_mem h
  simp only [flatMap_append, flatMap_cons, countP_append]
  omega

theorem countIn_append (key : String) (l l' : List ReservedKey) :
    countIn key (l ++ l') = countIn key l + countIn key l' :=
  countP_append

theorem countIn_cons (key : String) (k : ReservedKey) (l : List ReservedKey) :
    countIn key (k :: l) = countIn key l + if k.key = key then 1 else 0 := by
  simp [countIn, countP_cons]

theorem countIn_perm {l l' : List ReservedKey} (h : l.Perm l') (key : String) :
    countIn key l = countIn key l' :=
  h.countP_eq _

theorem balanceOf_append (key : String) (ws ws' : List (String × ℤ)) :
    balanceOf key (ws ++ ws') = balanceOf key ws + balanceOf key ws' := by
  induction ws with
  | nil => simp [balanceOf]
  | cons w ws ih =>
    simp only [cons_append, balanceOf, ih]
    ring

theorem places_le_countIn (s : Throttled) (rule : ActiveRule) (key : String) :
    s.places rule key ≤ countIn key s.held := by
  refine countP_mono_left fun k _ hk => ?_
  simpa using congrArg ReservedKey.key (eq_of_beq hk)

theorem taken_set (h : s.calls[i]? = some c) (store : Counters) (c' : Call) (key : String) :
    Throttled.taken ⟨store, s.calls.set i c'⟩ key + c.stage.taken key =
      s.taken key + c'.stage.taken key := by
  have hheld := countP_flatMap_set (fun k => k.key = key) (fun c => c.stage.held) h c'
  have hover := countP_flatMap_set (fun k => k.key = key) (fun c => c.stage.excess) h c'
  simp only [Throttled.taken, Stage.taken, Throttled.held, Throttled.excess, countIn] at *
  omega

theorem Throttled.taken_le (s : Throttled) (h : c ∈ s.calls) (key : String) :
    c.stage.taken key ≤ s.taken key :=
  Nat.add_le_add
    (countP_le_flatMap (fun k : ReservedKey => k.key = key) (fun c : Call => c.stage.held) h)
    (countP_le_flatMap (fun k : ReservedKey => k.key = key) (fun c : Call => c.stage.excess) h)

end Counting

/-! ## What one step does -/

variable {st : Stage} {out : Outcome}

section Effects

variable {fl : ℚ → ℚ} {digest : String → String} {disabled : Bool}

/-- What a step does to what its call holds, and to the counters. -/
inductive Effect (fl : ℚ → ℚ) (store : Counters) (st : Stage) : Outcome → Prop
  | keeps {next : Stage} (hheld : next.held.Perm st.held) (hover : next.excess = st.excess) :
      Effect fl store st ⟨next, store, []⟩
  | accepts {next : Stage} (key : ReservedKey) (previous now : ℤ)
      (hfits : SlidingWindow.Fits fl
        ⟨key.rule.limit, 0, previous, bucketElapsed fl key.rule.limit.window now⟩
        (max (store.get key.key + 1) 1))
      (hheld : next.held = st.held ++ [key]) (hover : next.excess = st.excess) :
      Effect fl store st ⟨next, store.increment key.key, [(key.key, 1)]⟩
  | overshoots {next : Stage} (key : ReservedKey) (hheld : next.held = st.held)
      (hover : next.excess = key :: st.excess) :
      Effect fl store st ⟨next, store.increment key.key, [(key.key, 1)]⟩
  | takesBack {next : Stage} (key : ReservedKey) (hheld : next.held = st.held)
      (hover : st.excess = key :: next.excess) : Effect fl store st (refundKey store key next)
  | givesBack {next : Stage} (key : ReservedKey) (hheld : st.held = key :: next.held)
      (hover : next.excess = st.excess) : Effect fl store st (refundKey store key next)

variable {store : Counters}

theorem step_effect {now : ℤ} (h : st.step fl digest store now = some out) :
    Effect fl store st out := by
  cases st with
  | reading rules read =>
    cases rules with
    | nil | cons => obtain rfl := Option.some.inj h; exact .keeps (.refl _) rfl
  | readingPrevious rule window previousKey rules read =>
    obtain rfl := Option.some.inj h
    refine .keeps ?_ ?_
    · dsimp only; split <;> exact .refl _
    · dsimp only; split <;> rfl
  | taking rules keys =>
    cases rules with
    | nil => obtain rfl := Option.some.inj h; exact .keeps (.refl _) rfl
    | cons r rules =>
      obtain ⟨rule, previous⟩ := r
      obtain rfl := Option.some.inj h
      unfold take
      dsimp only
      split
      · rename_i hwait
        exact .accepts ⟨rule, _⟩ previous now ((SlidingWindow.wait_eq_zero_iff fl _ _).1 hwait) rfl
          rfl
      · exact .overshoots ⟨rule, _⟩ rfl rfl
  | undoing key keys wait => obtain rfl := Option.some.inj h; exact .takesBack key rfl rfl
  | givingBack keys rule wait =>
    cases keys with
    | nil => obtain rfl := Option.some.inj h; exact .keeps (.refl _) rfl
    | cons key keys => obtain rfl := Option.some.inj h; exact .givesBack key rfl rfl
  | refunding keys except kept =>
    cases keys with
    | nil => obtain rfl := Option.some.inj h; exact .keeps (.refl _) rfl
    | cons key keys =>
      rw [Stage.step] at h
      split at h
      · obtain rfl := Option.some.inj h
        -- the place goes from the first of those left to the last of those kept
        have hperm : (keys ++ kept ++ [key]).Perm (key :: (keys ++ kept)) := perm_append_comm
        rw [append_assoc] at hperm
        exact .keeps hperm rfl
      · obtain rfl := Option.some.inj h
        exact .givesBack key rfl rfl
  | returned | refused | refunded => cases h

/-- What a step adds to a counter is what its call then counts for, more or less. -/
theorem Effect.taken (h : Effect fl store st out) :
    (out.store = store ∧ out.writes = [] ∧ ∀ k, out.stage.taken k = st.taken k) ∨
    (∃ key, out.store = store.increment key ∧ out.writes = [(key, 1)] ∧
      ∀ k, out.stage.taken k = st.taken k + if key = k then 1 else 0) ∨
    ∃ key next, out = refundKey store key next ∧
      ∀ k, st.taken k = next.taken k + if key.key = k then 1 else 0 := by
  unfold Stage.taken
  cases h with
  | @keeps next hheld hover =>
    refine Or.inl ⟨rfl, rfl, fun k => ?_⟩
    rw [countIn_perm hheld, hover]
  | @accepts next key previous now hfits hheld hover =>
    refine Or.inr (Or.inl ⟨key.key, rfl, rfl, fun k => ?_⟩)
    rw [hheld, hover, countIn_append, countIn_cons]
    simp only [countIn, countP_nil]
    omega
  | @overshoots next key hheld hover =>
    refine Or.inr (Or.inl ⟨key.key, rfl, rfl, fun k => ?_⟩)
    rw [hheld, hover, countIn_cons]
    omega
  | @takesBack next key hheld hover =>
    refine Or.inr (Or.inr ⟨key, next, rfl, fun k => ?_⟩)
    rw [hheld, hover, countIn_cons]
    omega
  | @givesBack next key hheld hover =>
    refine Or.inr (Or.inr ⟨key, next, rfl, fun k => ?_⟩)
    rw [hheld, hover, countIn_cons]
    omega

/-! ## Counters and balances -/

/-- The counters and the balances of the calls agree with what is held. -/
structure Tallied (s : Throttled) : Prop where
  /-- A counter is the number of increments that are not taken back. -/
  counter : ∀ key, s.store key = some (s.taken key : ℤ) ∨ s.store key = none ∧ s.taken key = 0
  /-- What a call added to a counter on balance is what it counts for. -/
  balance : ∀ c ∈ s.calls, ∀ key, balanceOf key c.writes = c.stage.taken key

theorem Tallied.get_eq (h : Tallied s) (key : String) : s.store.get key = s.taken key := by
  rcases h.counter key with hkey | ⟨hkey, hzero⟩
  · rw [Counters.get, hkey, Option.getD_some]
  · rw [Counters.get, hkey, hzero, Option.getD_none, Nat.cast_zero]

theorem tallied_init : Tallied Throttled.init where
  counter _ := Or.inr ⟨rfl, rfl⟩
  balance _ hc := absurd hc not_mem_nil

/-- One call changes, and the counters with it. -/
theorem Tallied.set (hs : Tallied s) {c' : Call} (hcall : s.calls[i]? = some c)
    (hbalance : ∀ key, balanceOf key c'.writes = c'.stage.taken key)
    (hstore : ∀ key (n : ℕ), n + c.stage.taken key = s.taken key + c'.stage.taken key →
      store key = some (n : ℤ) ∨ store key = none ∧ n = 0) :
    Tallied ⟨store, s.calls.set i c'⟩ where
  counter key := hstore key _ (taken_set hcall store c' key)
  balance c hc := by
    rcases mem_or_eq_of_mem_set hc with hmem | rfl
    · exact hs.balance c hmem
    · exact hbalance

/-- A call that counts for something at a key finds the counter there. -/
theorem Tallied.exists_counter (hs : Tallied s) (hc : c ∈ s.calls) {key : String}
    (hpos : 0 < c.stage.taken key) : s.store key = some (s.taken key : ℤ) := by
  have hle := s.taken_le hc key
  rcases hs.counter key with hkey | ⟨-, hzero⟩
  · exact hkey
  · omega

/-- A new call counts for nothing. -/
theorem tallied_reserve (hs : Tallied s) (rules : List ThrottleRule) :
    Tallied ⟨s.store, s.calls ++ [⟨reserve disabled rules, []⟩]⟩ := by
  have hstart : ∀ key, (reserve disabled rules).taken key = 0 := by
    intro key
    unfold reserve
    split <;> rfl
  refine ⟨fun key => ?_, fun c hc key => ?_⟩
  · have htaken : Throttled.taken ⟨s.store, s.calls ++ [⟨reserve disabled rules, []⟩]⟩ key =
        s.taken key := by
      have := hstart key
      simp only [Throttled.taken, Throttled.held, Throttled.excess, Stage.taken,
        flatMap_append, flatMap_singleton, countIn_append] at *
      omega
    rw [htaken]
    exact hs.counter key
  · rcases mem_append.1 hc with hmem | hmem
    · exact hs.balance c hmem key
    · rw [mem_singleton.1 hmem, hstart key]
      rfl

/-- **One step keeps the counters and the balances.** -/
theorem tallied_step {s' : Throttled} {e : Event} (h : Throttled.Step fl digest disabled s e s')
    (hs : Tallied s) : Tallied s' := by
  cases h with
  | reserve rules => exact tallied_reserve hs rules
  | @step i now c out hcall hstep =>
    have hc := mem_of_getElem? hcall
    have hold := hs.balance c hc
    rcases (step_effect hstep).taken with ⟨hstore, hwrites, hsame⟩ | ⟨key, hstore, hwrites, hmore⟩ |
      ⟨key, next, rfl, hless⟩
    · refine hs.set hcall (fun k => ?_) fun k n hn => ?_
      · rw [hwrites, append_nil, hold, hsame]
      · obtain rfl : n = s.taken k := by
          rw [hsame] at hn
          omega
        rw [hstore]
        exact hs.counter k
    · refine hs.set hcall (fun k => ?_) fun k n hn => ?_
      · rw [hwrites, balanceOf_append, hold, hmore]
        simp only [balanceOf]
        split <;> push_cast <;> ring
      · rw [hmore] at hn
        rw [hstore, Counters.increment, Function.update_apply]
        by_cases hk : k = key
        · rw [if_pos hk.symm] at hn
          rw [if_pos hk, ← hk, hs.get_eq]
          refine Or.inl (congrArg some ?_)
          omega
        · rw [if_neg (Ne.symm hk)] at hn
          rw [if_neg hk, (by omega : n = s.taken k)]
          exact hs.counter k
    · -- the call counts for the place, so its counter exists
      have hsome := hs.exists_counter hc (by rw [hless key.key, if_pos rfl]; omega)
      refine hs.set hcall (fun k => ?_) fun k n hn => ?_
      · simp only [refundKey, hsome, Option.isSome_some, if_true]
        rw [balanceOf_append, hold, hless k]
        simp only [balanceOf]
        split <;> push_cast <;> ring
      · rw [hless k] at hn
        dsimp only [refundKey] at hn ⊢
        rw [Counters.decrementExisting, Function.update_apply]
        by_cases hk : k = key.key
        · rw [if_pos hk.symm] at hn
          rw [if_pos hk, hsome, Option.map_some, ← hk]
          refine Or.inl (congrArg some ?_)
          omega
        · rw [if_neg (Ne.symm hk)] at hn
          rw [if_neg hk, (by omega : n = s.taken k)]
          exact hs.counter k
  | @refund i except keys writes hcall =>
    have hsame : ∀ k, (Stage.refunding keys except []).taken k = (Stage.returned keys).taken k := by
      intro k
      simp only [Stage.taken, Stage.held, Stage.excess, append_nil]
    refine hs.set hcall (fun k => ?_) fun k n hn => ?_
    · rw [hsame k]
      exact hs.balance _ (mem_of_getElem? hcall) k
    · rw [hsame k] at hn
      obtain rfl : n = s.taken k := Nat.add_right_cancel hn
      exact hs.counter k

/-! ## The limit -/

/-- What a step can add to the places of a rule in a bucket. -/
theorem Effect.count_le (h : Effect fl store st out) (place : ReservedKey) :
    out.stage.held.count place ≤ st.held.count place ∨
      out.stage.held.count place = st.held.count place + 1 ∧
        ∃ previous now, SlidingWindow.Fits fl
          ⟨place.rule.limit, 0, previous, bucketElapsed fl place.rule.limit.window now⟩
          (max (store.get place.key + 1) 1) := by
  cases h with
  | @keeps next hheld hover => exact Or.inl (hheld.count_eq place).le
  | @accepts next key previous now hfits hheld hover =>
    by_cases hk : key = place
    · subst hk
      exact Or.inr ⟨by simp [hheld], previous, now, hfits⟩
    · exact Or.inl (by simp [hheld, hk])
  | @overshoots next key hheld hover => exact Or.inl (by rw [hheld])
  | @takesBack next key hheld hover => exact Or.inl (by simp only [refundKey]; rw [hheld])
  | @givesBack next key hheld hover =>
    refine Or.inl ?_
    simp only [refundKey]
    rw [hheld]
    exact (sublist_cons_self _ _).count_le _

end Effects

/-- A bucket does not pass by more than itself. -/
theorem bucketElapsed_le_one {window : ℤ} (hwindow : 0 < window) (now : ℤ) :
    bucketElapsed nearestDouble window now ≤ 1 := by
  have hpos : (0 : ℚ) ≤ window := by exact_mod_cast hwindow.le
  have hlt : now - bucketIndex window now * window ≤ window := by
    rw [bucketIndex, mul_comm, ← Int.tmod_def]
    exact (Int.tmod_lt_of_pos now hwindow).le
  have hone : nearestDouble 1 = 1 := by exact_mod_cast nearestDouble_natCast (by norm_num : 1 ≤ 2 ^ 53)
  unfold bucketElapsed
  generalize now - bucketIndex window now * window = passed at hlt
  rcases le_or_gt 0 passed with h0 | h0
  · have h0' : (0 : ℚ) ≤ passed := by exact_mod_cast h0
    have hle : nearestDouble passed / nearestDouble window ≤ 1 :=
      div_le_one_of_le₀ (nearestDouble_mono h0' (by exact_mod_cast hlt)) (nearestDouble_nonneg hpos)
    have hnonneg : 0 ≤ nearestDouble passed / nearestDouble window :=
      div_nonneg (nearestDouble_nonneg h0') (nearestDouble_nonneg hpos)
    exact (nearestDouble_mono hnonneg hle).trans hone.le
  · -- before 1970
    have h0' : (passed : ℚ) ≤ 0 := by exact_mod_cast h0.le
    have hle : nearestDouble passed / nearestDouble window ≤ 0 :=
      div_nonpos_of_nonpos_of_nonneg (nearestDouble_nonpos h0') (nearestDouble_nonneg hpos)
    exact (nearestDouble_nonpos hle).trans zero_le_one

/-- **An accepted count is at most the limit**, as long as floats tell the limit from the number
after it. -/
theorem le_limit_of_fits {w : SlidingWindow} (helapsed : w.elapsed ≤ 1) (hlimit : 0 < w.limit.limit)
    (hsmall : w.limit.limit < 2 ^ 53) {count : ℤ} (hfits : w.Fits nearestDouble count) :
    count ≤ w.limit.limit := by
  obtain ⟨b, hb⟩ := Int.eq_ofNat_of_zero_le hlimit.le
  have hb53 : b < 2 ^ 53 := by omega
  by_contra hlt
  have hnext : ((b + 1 : ℕ) : ℚ) ≤ count := by
    rw [hb] at hlt
    exact_mod_cast Int.lt_of_not_ge hlt
  have hcount : ((b + 1 : ℕ) : ℚ) ≤ nearestDouble count := by
    rw [← nearestDouble_natCast (show b + 1 ≤ 2 ^ 53 by omega)]
    exact nearestDouble_mono (Nat.cast_nonneg _) hnext
  have hrest : 0 ≤ nearestDouble (nearestDouble (max w.previous 0 : ℤ) *
      nearestDouble (1 - w.elapsed)) := by
    refine nearestDouble_nonneg (mul_nonneg (nearestDouble_nonneg ?_) (nearestDouble_nonneg ?_))
    · exact_mod_cast le_max_right _ _
    · linarith
  have hsum : ((b + 1 : ℕ) : ℚ) ≤ nearestDouble (nearestDouble (nearestDouble (max w.previous 0 : ℤ) *
      nearestDouble (1 - w.elapsed)) + nearestDouble count) := by
    rw [← nearestDouble_natCast (show b + 1 ≤ 2 ^ 53 by omega)]
    exact nearestDouble_mono (Nat.cast_nonneg _) (by linarith)
  have hle : ((b + 1 : ℕ) : ℚ) ≤ b := by
    have hfits' := hsum.trans hfits
    rw [hb] at hfits'
    rwa [Int.cast_natCast, nearestDouble_natCast hb53.le] at hfits'
  norm_cast at hle
  omega

/-- The places of every rule, in every bucket, are at most its limit. -/
def Bounded (s : Throttled) : Prop :=
  ∀ rule : ActiveRule, rule.limit.limit < 2 ^ 53 → ∀ key, (s.places rule key : ℤ) ≤ rule.limit.limit

variable {digest : String → String} {disabled : Bool}

/-- **One step keeps the places within the limits.** -/
theorem bounded_step {s' : Throttled} {e : Event}
    (h : Throttled.Step nearestDouble digest disabled s e s') (ht : Tallied s) (hs : Bounded s) :
    Bounded s' := by
  intro rule hsmall key
  have hold := hs rule hsmall key
  cases h with
  | reserve rules =>
    have hnew : (reserve disabled rules).held = [] := by
      unfold reserve
      split <;> rfl
    simpa [Throttled.places, Throttled.held, hnew] using hold
  | @step i now c out hcall hstep =>
    have hcount := countP_flatMap_set (· == (⟨rule, key⟩ : ReservedKey)) (fun c => c.stage.held) hcall
      ⟨out.stage, c.writes ++ out.writes⟩
    rcases (step_effect hstep).count_le ⟨rule, key⟩ with hle | ⟨heq, previous, now', hfits⟩
    · simp only [Throttled.places, Throttled.held, List.count] at hold hle hcount ⊢
      omega
    · -- the counter, which counts every place held, is at most the limit
      have hpos : 0 < rule.limit.limit ∧ 0 < rule.limit.window := by
        simpa [ThrottleLimit.on] using rule.on
      have hlimit := le_limit_of_fits (bucketElapsed_le_one hpos.2 now') hpos.1 hsmall hfits
      have hplaces := places_le_countIn s rule key
      have hget := ht.get_eq key
      dsimp only at hlimit
      rw [hget] at hlimit
      simp only [Throttled.places, Throttled.held, Throttled.taken, List.count] at *
      omega
  | @refund i except keys writes hcall =>
    have hcount := countP_flatMap_set (· == (⟨rule, key⟩ : ReservedKey)) (fun c => c.stage.held) hcall
      ⟨.refunding keys except [], writes⟩
    simp only [Throttled.places, Throttled.held, List.count, Stage.held, append_nil] at *
    omega

/-- **The places of concurrent attempts.** After any run of `reserve` and `refund` calls, the
attempts of a rule hold at most `Limit` places in a bucket; a `reserve` that was refused changed no
counter on balance; and when no call is running, every counter is the number of places held in its
bucket. -/
theorem places_of_run {es : List Event} {s : Throttled}
    (h : Run (Throttled.Step nearestDouble digest disabled) Throttled.init es s) :
    (∀ rule : ActiveRule, rule.limit.limit < 2 ^ 53 → ∀ key,
      (s.places rule key : ℤ) ≤ rule.limit.limit) ∧
    (∀ c ∈ s.calls, ∀ rule wait, c.stage = .refused rule wait → ∀ key, balanceOf key c.writes = 0) ∧
    (s.Idle → ∀ key, s.store.get key = countIn key s.held) := by
  obtain ⟨ht, hb⟩ : Tallied s ∧ Bounded s := by
    refine h.preserves (I := fun s => Tallied s ∧ Bounded s) (fun s e s' hstep hs => ?_) ?_
    · exact ⟨tallied_step hstep hs.1, bounded_step hstep hs.1 hs.2⟩
    · refine ⟨tallied_init, fun rule _ key => ?_⟩
      have hpos : 0 < rule.limit.limit ∧ 0 < rule.limit.window := by
        simpa [ThrottleLimit.on] using rule.on
      simpa [Throttled.places, Throttled.held, Throttled.init] using hpos.1.le
  refine ⟨hb, fun c hc rule wait hrefused key => ?_, fun hidle key => ?_⟩
  · rw [ht.balance c hc key, hrefused]
    rfl
  · have hover : s.excess = [] := by
      refine flatMap_eq_nil_iff.2 fun c hc => ?_
      have hc' := hidle c hc
      cases hstage : c.stage with
      | undoing excess keys wait => simp [hstage, Stage.idle] at hc'
      | _ => rfl
    rw [ht.get_eq key, Throttled.taken, hover]
    simp [countIn]

/-! ## Attempts one after the other -/

variable {n : ℕ}

section Alone

variable (digest : String → String) (rule : ActiveRule)

/-- The bucket of a rule at the instant zero. -/
def firstBucket : ReservedKey :=
  ⟨rule, bucketKey digest rule.toThrottleRule (bucketIndex rule.limit.window 0)⟩

/-- The key of the bucket before. -/
def bucketBefore : String :=
  bucketKey digest rule.toThrottleRule (bucketIndex rule.limit.window 0 - 1)

theorem bucketBefore_ne : bucketBefore digest rule ≠ (firstBucket digest rule).key := by
  intro h
  have hlength := congrArg String.length h
  have hindex : bucketIndex rule.limit.window 0 = 0 := Int.zero_tdiv _
  simp only [bucketBefore, firstBucket, bucketKey, hindex, String.length_append] at hlength
  have hbefore : (toString ((0 : ℤ) - 1)).length = 2 := by decide
  have hcurrent : (toString (0 : ℤ)).length = 1 := by decide
  omega

theorem active_singleton : active [rule.toThrottleRule] = [rule] := by
  have h : rule.toThrottleRule.limit.on = true ∧ rule.toThrottleRule.subject ≠ "" :=
    ⟨rule.on, rule.named⟩
  simp only [active, filterMap_cons, filterMap_nil, dif_pos h]

variable {digest rule} {disabled : Bool}

/-- The last call takes a step. -/
theorem step_last {fl : ℚ → ℚ} {store : Counters} {calls : List Call} {now : ℤ}
    (h : c.stage.step fl digest store now = some out) :
    Throttled.Step fl digest disabled ⟨store, calls ++ [c]⟩ (.step calls.length now)
      ⟨out.store, calls ++ [⟨out.stage, c.writes ++ out.writes⟩]⟩ := by
  have hstep : Throttled.Step fl digest disabled ⟨store, calls ++ [c]⟩ (.step calls.length now) _ :=
    .step List.getElem?_concat_length h
  simpa using hstep

/-- An attempt on its own, in a bucket that holds `n` places and has room for one more. -/
theorem run_alone {store : Counters}
    (hfits : ∀ current, SlidingWindow.Fits nearestDouble
      ⟨rule.limit, current, 0, bucketElapsed nearestDouble rule.limit.window 0⟩ (n + 1 : ℕ))
    (hcurrent : store.get (firstBucket digest rule).key = n)
    (hprevious : store.get (bucketBefore digest rule) = 0) (calls : List Call) :
    ∃ es, Run (Throttled.Step nearestDouble digest false) ⟨store, calls⟩ es
      ⟨store.increment (firstBucket digest rule).key,
        calls ++ [⟨.returned [firstBucket digest rule], [((firstBucket digest rule).key, 1)]⟩]⟩ := by
  set elapsed := bucketElapsed nearestDouble rule.limit.window 0 with helapsed
  have hwait : ∀ current, SlidingWindow.wait nearestDouble ⟨rule.limit, current, 0, elapsed⟩
      (n + 1 : ℕ) = some 0 :=
    fun current => (SlidingWindow.wait_eq_zero_iff nearestDouble _ _).2 (hfits current)
  have hfirst : Stage.step nearestDouble digest store 0 (reserve false [rule.toThrottleRule]) =
      some ⟨.readingPrevious rule ⟨rule.limit, n, 0, elapsed⟩ (bucketBefore digest rule) [] [],
        store, []⟩ := by
    rw [reserve, if_neg Bool.false_ne_true, active_singleton, ← hcurrent]
    rfl
  have hread : Stage.step nearestDouble digest store 0
      (.readingPrevious rule ⟨rule.limit, n, 0, elapsed⟩ (bucketBefore digest rule) [] []) =
        some ⟨.reading [] [(rule, 0)], store, []⟩ := by
    have hcount : (n : ℤ) + 1 = (n + 1 : ℕ) := rfl
    simp only [Stage.step, hprevious, hcount, hwait, if_true, nil_append]
  have hturn : Stage.step nearestDouble digest store 0 (.reading [] [(rule, 0)]) =
      some ⟨.taking [(rule, 0)] [], store, []⟩ := rfl
  have htake : Stage.step nearestDouble digest store 0 (.taking [(rule, 0)] []) =
      some ⟨.taking [] [firstBucket digest rule], store.increment (firstBucket digest rule).key,
        [((firstBucket digest rule).key, 1)]⟩ := by
    have hmax : max (store.get (firstBucket digest rule).key + 1) 1 = (n + 1 : ℕ) := by
      rw [hcurrent]
      omega
    have hzero := hwait 0
    rw [← hmax] at hzero
    have hstage : (take nearestDouble digest store 0 rule 0 [] []).stage =
        .taking [] [firstBucket digest rule] := if_pos hzero
    rw [Stage.step, ← hstage]
    rfl
  have hlast : Stage.step nearestDouble digest (store.increment (firstBucket digest rule).key) 0
      (.taking [] [firstBucket digest rule]) = some ⟨.returned [firstBucket digest rule], _, []⟩ := rfl
  exact ⟨_, .cons (.reserve _ [rule.toThrottleRule]) (.cons (step_last hfirst)
    (.cons (step_last hread) (.cons (step_last hturn) (.cons (step_last htake)
      (.cons (step_last hlast) (.nil _))))))⟩

/-- As many attempts as have room, one after the other. -/
theorem exists_run_alone (digest : String → String) (rule : ActiveRule)
    (hfits : ∀ m < n, ∀ current, SlidingWindow.Fits nearestDouble
      ⟨rule.limit, current, 0, bucketElapsed nearestDouble rule.limit.window 0⟩ (m + 1 : ℕ)) :
    ∃ es s, Run (Throttled.Step nearestDouble digest false) Throttled.init es s ∧
      s.store.get (firstBucket digest rule).key = n ∧ s.store.get (bucketBefore digest rule) = 0 ∧
      s.places rule (firstBucket digest rule).key = n := by
  induction n with
  | zero => exact ⟨[], Throttled.init, .nil _, rfl, rfl, rfl⟩
  | succ n ih =>
    obtain ⟨es, ⟨store, calls⟩, hrun, hcurrent, hprevious, hplaces⟩ :=
      ih fun m hm => hfits m (by omega)
    obtain ⟨es', hrun'⟩ := run_alone (hfits n (by omega)) hcurrent hprevious calls
    refine ⟨_, _, hrun.append hrun', ?_, ?_, ?_⟩
    · exact (Counters.get_increment_self _ _).trans (by rw [hcurrent]; rfl)
    · exact (Counters.get_increment_ne _ (bucketBefore_ne digest rule)).trans hprevious
    · have hplace : (⟨rule, (firstBucket digest rule).key⟩ : ReservedKey) = firstBucket digest rule :=
        rfl
      simp only [Throttled.places, Throttled.held, flatMap_append, count_append,
        hplace] at hplaces ⊢
      rw [hplaces]
      simp [Stage.held]

end Alone

/-- A rule that admits one attempt in a second. -/
def narrowRule : ActiveRule where
  name := .tokenPerAddress
  limit := ⟨1, second⟩
  subject := "192.0.2.1"
  on := rfl
  named := by decide

/-- The calls take steps in this order, at the instant zero. -/
def Throttled.steps (s : Throttled) : List ℕ → Option Throttled
  | [] => some s
  | i :: is => s.calls[i]?.bind fun c =>
    (c.stage.step nearestDouble id s.store 0).bind fun out =>
      Throttled.steps ⟨out.store, s.calls.set i ⟨out.stage, c.writes ++ out.writes⟩⟩ is

theorem run_steps {s' : Throttled} {is : List ℕ} (h : s.steps is = some s') :
    Run (Throttled.Step nearestDouble id false) s (is.map (.step · 0)) s' := by
  induction is generalizing s with
  | nil =>
    cases h
    exact .nil _
  | cons i is ih =>
    simp only [Throttled.steps, Option.bind_eq_some_iff] at h
    obtain ⟨c, hcall, out, hstep, h⟩ := h
    exact .cons (.step hcall hstep) (ih h)

def Stage.isRefused : Stage → Bool
  | .refused _ _ => true
  | _ => false

theorem exists_refused {st : Stage} (h : st.isRefused = true) :
    ∃ rule wait, st = .refused rule wait := by
  cases st with
  | refused rule wait => exact ⟨rule, wait, rfl⟩
  | _ => cases h

/-- Two attempts at a time: both find room, one takes the only place and the other is refused. -/
theorem places_of_run_narrow : ∃ es s,
    Run (Throttled.Step nearestDouble id false) Throttled.init es s ∧
      s.places narrowRule (firstBucket id narrowRule).key = 1 ∧
      (∀ rule : ActiveRule, rule.limit.limit < 2 ^ 53 → ∀ key,
        (s.places rule key : ℤ) ≤ rule.limit.limit) ∧
      (∃ c ∈ s.calls, ∃ rule wait, c.stage = .refused rule wait ∧ ∀ key, balanceOf key c.writes = 0) ∧
      ∀ key, s.store.get key = countIn key s.held := by
  let attempt : Call := ⟨reserve false [narrowRule.toThrottleRule], []⟩
  have heval : (Throttled.steps ⟨Throttled.init.store, [attempt, attempt]⟩
      [0, 1, 0, 1, 0, 1, 0, 1, 0, 1, 1]).any (fun s =>
        decide (s.places narrowRule (firstBucket id narrowRule).key = 1) &&
          (s.calls.all fun c => c.stage.idle) && s.calls.any fun c =>
            c.stage.isRefused) = true := by decide +kernel
  simp only [Option.any_eq_true, Bool.and_eq_true, decide_eq_true_eq, all_eq_true, any_eq_true] at heval
  obtain ⟨s, hsteps, ⟨hplaces, hidle⟩, c, hc, hrefused⟩ := heval
  have hrun := Run.cons (.reserve Throttled.init [narrowRule.toThrottleRule])
    (.cons (.reserve _ [narrowRule.toThrottleRule]) (run_steps hsteps))
  obtain ⟨hlimit, hbalance, hcounters⟩ := places_of_run hrun
  obtain ⟨rule, wait, hstage⟩ := exists_refused hrefused
  exact ⟨_, s, hrun, hplaces, hlimit, ⟨c, hc, rule, wait, hstage, hbalance c hc rule wait hstage⟩,
    hcounters hidle⟩

/-! ## A limit that floats do not tell from the next number -/

/-- A rule that admits `2 ^ 53` attempts in a second. -/
def wideRule : ActiveRule where
  name := .loginPerAddress
  limit := ⟨2 ^ 53, second⟩
  subject := "192.0.2.1"
  on := rfl
  named := by decide

/-- A place past the limit fits. -/
theorem fits_wide {w : SlidingWindow} (hlimit : w.limit.limit = 2 ^ 53)
    (hprevious : w.previous = 0) (hn : n ≤ 2 ^ 53) : w.Fits nearestDouble (n + 1 : ℕ) := by
  have hmax : nearestDouble ((2 ^ 53 : ℕ) : ℚ) = (2 ^ 53 : ℕ) := nearestDouble_natCast le_rfl
  have hle : nearestDouble (nearestDouble ((n + 1 : ℕ) : ℚ)) ≤ (2 ^ 53 : ℕ) := by
    rcases Nat.lt_or_ge n (2 ^ 53) with hlt | hge
    · rw [nearestDouble_natCast hlt, nearestDouble_natCast hlt]
      exact_mod_cast hlt
    · obtain rfl : n = 2 ^ 53 := le_antisymm hn hge
      rw [nearestDouble_odd, hmax]
  have hzero : nearestDouble (nearestDouble ((max w.previous 0 : ℤ) : ℚ) *
      nearestDouble (1 - w.elapsed)) = 0 := by
    rw [hprevious, max_self, Int.cast_zero, nearestDouble_zero, zero_mul, nearestDouble_zero]
  have hlimit' : nearestDouble (w.limit.limit : ℚ) = (2 ^ 53 : ℕ) := by
    rw [hlimit, ← hmax]
    norm_num
  unfold SlidingWindow.Fits
  rw [hzero, zero_add, hlimit']
  exact_mod_cast hle

/-- **A place past the limit.** With a limit of `2 ^ 53`, as many attempts and one more hold a place
in one bucket. -/
theorem place_past_the_limit :
    ∃ es s, Run (Throttled.Step nearestDouble (fun text => text) false) Throttled.init es s ∧
      wideRule.limit.limit < s.places wideRule (firstBucket (fun text => text) wideRule).key := by
  obtain ⟨es, s, hrun, -, -, hplaces⟩ :=
    exists_run_alone (fun text => text) wideRule (n := 2 ^ 53 + 1)
      fun m hm current => fits_wide rfl rfl (by omega)
  refine ⟨es, s, hrun, ?_⟩
  rw [hplaces]
  decide

end Gombit.Auth.Places
