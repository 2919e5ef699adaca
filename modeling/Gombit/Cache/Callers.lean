import Gombit.Cache.Store
import Gombit.Foundations.Run
import Mathlib.Data.List.Perm.Basic
import Mathlib.Logic.Function.Basic

/-!
# Concurrent callers of the memory cache

Any number of callers use one `Memory` at a time, and its janitor sweeps. Between two steps of one of
them, every other may take steps and the clock may advance. A step is a reading of the clock with the
part of the lock's section around it: an `Increment` reads the clock twice while it holds the lock, a
`Get` looks at the map and reads the clock after it has given the lock back.

* `Machine.next`: the step function, and `Step` the relation it gives.
* `Acts`, `Sweeps`: what a step of a caller and of the janitor can do; the rest is read off from them.
* `Inv`: what every reachable state has. Its use is `Inv.current_eq`: the count an increment has found
  is still the count at its second reading of the clock, unless the item has expired in between.
-/

namespace Gombit.Cache

/-! ## The machine -/

/-- Where a caller is in its operation. -/
inductive Stage
  | idle
  /-- The operation has been called. -/
  | called (op : Op)
  /-- `Get` has the item and has given the lock back. -/
  | copied (key : String) (item : Item)
  /-- `Get` has found the item expired. -/
  | judged (key : String)
  /-- `increment` holds the lock and is before its second reading of the clock. -/
  | adding (key : String) (delta ttl current : ℤ)
  /-- The operation is done but has not returned. -/
  | returning (reply : Reply)
  deriving DecidableEq

/-- Where the janitor is in `sweepExpired`. -/
inductive Janitor
  | idle
  | started (now : ℤ)
  | sweeping (now : ℤ) (keys : List String)

/-- A `Memory` and those who use it. -/
structure Machine (ι : Type) where
  clock : ℤ
  items : Items
  /-- The `increment` that holds the lock between two steps. -/
  lock : Option ι
  stage : ι → Stage
  janitor : Janitor

/-- What can happen next. -/
inductive Event (ι : Type)
  | tick (d : ℕ)
  | call (c : ι) (op : Op)
  | act (c : ι)
  | ret (c : ι) (reply : Reply)
  /-- The janitor; a range over the map goes in the given order. -/
  | sweep (order : List String)

/-- The caller that takes the step. -/
def Event.actor {ι : Type} : Event ι → Option ι
  | .call c _ | .act c | .ret c _ => some c
  | .tick _ | .sweep _ => none

/-- `memorySweepBatchSize`. -/
def memorySweepBatchSize : ℕ := 1000

/-- `validateCounterTTL` refuses the operation. -/
def Op.refused : Op → Bool
  | .incrementTTL _ _ ttl => decide (ttl ≤ 0)
  | _ => false

namespace Machine

variable {ι : Type} [DecidableEq ι]

/-- `NewMemory`, at the time `t`. -/
def new (t : ℤ) : Machine ι := ⟨t, ∅, none, fun _ => .idle, .idle⟩

def goto (s : Machine ι) (c : ι) (stage : Stage) : Machine ι :=
  { s with stage := Function.update s.stage c stage }

/-- The lock is given back, with these items and this reply. -/
def leave (s : Machine ι) (c : ι) (items : Items) (reply : Reply) : Machine ι :=
  Machine.goto { s with items := items, lock := none } c (.returning reply)

/-- `increment` up to its first reading of the clock. -/
def increment (s : Machine ι) (c : ι) (key : String) (delta ttl : ℤ) : Machine ι :=
  match Memory.current s.items key delta s.clock with
  | none => s.goto c (.returning .error)
  | some current => Machine.goto { s with lock := some c } c (.adding key delta ttl current)

/-- The first step of an operation that has the lock. -/
def enter (s : Machine ι) (c : ι) : Op → Machine ι
  | .get key =>
    match s.items.lookup key with
    | none => s.goto c (.returning .done)
    | some item => s.goto c (.copied key item)
  | .set key value => s.leave c (s.items.insert key ⟨value, none⟩) .done
  | .delete keys => s.leave c (Memory.delete s.items keys) .done
  | .increment key delta => s.increment c key delta 0
  | .incrementTTL key delta ttl => s.increment c key delta ttl
  | .decrementExisting key delta =>
    let r := Memory.decrementExisting s.items key delta s.clock
    s.leave c r.2 r.1

/-- The next step of a caller. -/
def act (s : Machine ι) (c : ι) : Option (Machine ι) :=
  match s.stage c with
  | .idle => none
  | .returning _ => none
  | .called op =>
    if op.refused then some (s.goto c (.returning .error))
    else if s.lock.isSome then none
    else some (s.enter c op)
  | .copied key item =>
    some (s.goto c (if item.expired s.clock then .judged key else .returning (.hit item.value)))
  | .judged key =>
    if s.lock.isSome then none
    else some (s.leave c (Memory.dropExpired s.clock s.items key) .done)
  | .adding key delta ttl current =>
    if s.lock = some c then
      some (s.leave c
        (s.items.insert key (Memory.increased s.items key (current + delta) ttl s.clock))
        (.count (current + delta)))
    else none

/-- The next step of the janitor. -/
def sweep (s : Machine ι) (order : List String) : Option (Machine ι) :=
  match s.janitor with
  | .idle => some { s with janitor := .started s.clock }
  | .started now =>
    if s.lock.isSome ∨ ¬order.Perm s.items.keys then none
    else some { s with janitor := .sweeping now order }
  | .sweeping _ [] => some { s with janitor := .idle }
  | .sweeping now keys =>
    if s.lock.isSome then none
    else some { s with
      items := Memory.sweepBatch now (keys.take memorySweepBatchSize) s.items
      janitor := .sweeping now (keys.drop memorySweepBatchSize) }

def next (s : Machine ι) : Event ι → Option (Machine ι)
  | .tick d => some { s with clock := s.clock + d }
  | .call c op => if s.stage c = .idle then some (s.goto c (.called op)) else none
  | .act c => s.act c
  | .ret c reply => if s.stage c = .returning reply then some (s.goto c .idle) else none
  | .sweep order => s.sweep order

end Machine

open Machine

variable {ι : Type} [DecidableEq ι] {s s' : Machine ι} {c : ι} {e : Event ι}

/-- A step of the machine. -/
def Step (s : Machine ι) (e : Event ι) (s' : Machine ι) : Prop := s.next e = some s'

theorem step_det (s : Machine ι) (e : Event ι) (s₁ s₂ : Machine ι) (h₁ : Step s e s₁)
    (h₂ : Step s e s₂) : s₁ = s₂ :=
  Option.some.inj (h₁.symm.trans h₂)

/-- The machine after the events, if they can happen. -/
def Machine.runs (s : Machine ι) : List (Event ι) → Option (Machine ι)
  | [] => some s
  | e :: es => (s.next e).bind fun s' => s'.runs es

variable {es : List (Event ι)}

theorem run_iff : Run Step s es s' ↔ s.runs es = some s' := by
  constructor
  · intro h
    induction h with
    | nil s => rfl
    | cons hstep _ ih =>
      change (Machine.next _ _).bind _ = _
      rw [show Machine.next _ _ = some _ from hstep]
      exact ih
  · intro h
    induction es generalizing s with
    | nil =>
      cases h
      exact .nil _
    | cons e es ih =>
      obtain ⟨s₁, hstep, hrest⟩ := Option.bind_eq_some_iff.1 h
      exact .cons hstep (ih hrest)

/-! ### What a step can do -/

@[simp] theorem goto_stage (stage : Stage) : (s.goto c stage).stage c = stage := by simp [goto]

theorem goto_stage_ne {c' : ι} (h : c' ≠ c) (stage : Stage) :
    (s.goto c stage).stage c' = s.stage c' := by
  simp [goto, h]

@[simp] theorem goto_clock (stage : Stage) : (s.goto c stage).clock = s.clock := rfl

@[simp] theorem leave_stage (items : Items) (reply : Reply) :
    (s.leave c items reply).stage c = .returning reply :=
  goto_stage _

@[simp] theorem leave_items (items : Items) (reply : Reply) : (s.leave c items reply).items = items :=
  rfl

@[simp] theorem leave_clock (items : Items) (reply : Reply) :
    (s.leave c items reply).clock = s.clock := rfl

/-- **What a caller's step does**, by the stage it finds: everything else follows from it. -/
inductive Acts (c : ι) (s : Machine ι) : Machine ι → Prop
  | refused (op : Op) (hstage : s.stage c = .called op) (href : op.refused = true) :
      Acts c s (s.goto c (.returning .error))
  | missing (key : String) (hstage : s.stage c = .called (.get key)) (hlock : s.lock = none)
      (hitem : s.items.lookup key = none) : Acts c s (s.goto c (.returning .done))
  | copies (key : String) (item : Item) (hstage : s.stage c = .called (.get key))
      (hlock : s.lock = none) (hitem : s.items.lookup key = some item) :
      Acts c s (s.goto c (.copied key item))
  | hits (key : String) (item : Item) (hstage : s.stage c = .copied key item)
      (hitem : item.expired s.clock = false) : Acts c s (s.goto c (.returning (.hit item.value)))
  | judges (key : String) (item : Item) (hstage : s.stage c = .copied key item)
      (hitem : item.expired s.clock = true) : Acts c s (s.goto c (.judged key))
  | drops (key : String) (hstage : s.stage c = .judged key) (hlock : s.lock = none) :
      Acts c s (s.leave c (Memory.dropExpired s.clock s.items key) .done)
  | sets (key : String) (value : ℤ) (hstage : s.stage c = .called (.set key value))
      (hlock : s.lock = none) : Acts c s (s.leave c (s.items.insert key ⟨value, none⟩) .done)
  | deletes (keys : List String) (hstage : s.stage c = .called (.delete keys))
      (hlock : s.lock = none) : Acts c s (s.leave c (Memory.delete s.items keys) .done)
  | overflows (op : Op) (key : String) (delta ttl : ℤ) (hstage : s.stage c = .called op)
      (hop : Redis.Adds op key delta ttl) (hlock : s.lock = none)
      (hover : addOverflows (countOf (live s.items s.clock key)) delta = true) :
      Acts c s (s.goto c (.returning .error))
  | reads (op : Op) (key : String) (delta ttl : ℤ) (hstage : s.stage c = .called op)
      (hop : Redis.Adds op key delta ttl) (hlock : s.lock = none)
      (hover : addOverflows (countOf (live s.items s.clock key)) delta = false) :
      Acts c s (Machine.goto { s with lock := some c } c
        (.adding key delta ttl (countOf (live s.items s.clock key))))
  | adds (key : String) (delta ttl current : ℤ)
      (hstage : s.stage c = .adding key delta ttl current) (hlock : s.lock = some c) :
      Acts c s (s.leave c
        (s.items.insert key (Memory.increased s.items key (current + delta) ttl s.clock))
        (.count (current + delta)))
  | decrements (key : String) (delta : ℤ) (hstage : s.stage c = .called (.decrementExisting key delta))
      (hlock : s.lock = none) :
      Acts c s (s.leave c (Memory.decrementExisting s.items key delta s.clock).2
        (Memory.decrementExisting s.items key delta s.clock).1)

variable {op : Op} {key : String} {delta ttl : ℤ}

theorem acts_increment (hstage : s.stage c = .called op) (hop : Redis.Adds op key delta ttl)
    (hlock : s.lock = none) : Acts c s (s.increment c key delta ttl) := by
  cases hover : addOverflows (countOf (live s.items s.clock key)) delta with
  | true =>
    have hcurrent : Memory.current s.items key delta s.clock = none := by
      simp [Memory.current, hover]
    simp only [Machine.increment, hcurrent]
    exact .overflows op key delta ttl hstage hop hlock hover
  | false =>
    have hcurrent : Memory.current s.items key delta s.clock =
        some (countOf (live s.items s.clock key)) := by
      simp [Memory.current, hover]
    simp only [Machine.increment, hcurrent]
    exact .reads op key delta ttl hstage hop hlock hover

theorem acts_of_step (h : Step s (.act c) s') : Acts c s s' := by
  change s.act c = some s' at h
  unfold Machine.act at h
  split at h
  · cases h
  · cases h
  · rename_i op hstage
    split at h
    · rename_i href
      cases h
      exact .refused op hstage href
    · rename_i href
      split at h
      · cases h
      · rename_i hlock
        rw [Bool.not_eq_true, Option.isSome_eq_false_iff, Option.isNone_iff_eq_none] at hlock
        cases h
        cases op with
        | get key =>
          cases hitem : s.items.lookup key with
          | none =>
            simp only [enter, hitem]
            exact .missing key hstage hlock hitem
          | some item =>
            simp only [enter, hitem]
            exact .copies key item hstage hlock hitem
        | set key value => exact .sets key value hstage hlock
        | delete keys => exact .deletes keys hstage hlock
        | increment key delta => exact acts_increment hstage (.inl ⟨rfl, rfl⟩) hlock
        | incrementTTL key delta ttl =>
          exact acts_increment hstage (.inr ⟨rfl, by simpa [Op.refused] using href⟩) hlock
        | decrementExisting key delta => exact .decrements key delta hstage hlock
  · rename_i key item hstage
    cases h
    cases hitem : item.expired s.clock with
    | true => exact .judges key item hstage hitem
    | false => exact .hits key item hstage hitem
  · rename_i key hstage
    split at h
    · cases h
    · rename_i hlock
      rw [Bool.not_eq_true, Option.isSome_eq_false_iff, Option.isNone_iff_eq_none] at hlock
      cases h
      exact .drops key hstage hlock
  · rename_i key delta ttl current hstage
    split at h
    · rename_i hlock
      cases h
      exact .adds key delta ttl current hstage hlock
    · cases h

/-! A caller's stage decides what it does next. -/

theorem Acts.of_get (h : Acts c s s') (hs : s.stage c = .called (.get key)) :
    s.items.lookup key = none ∧ s' = s.goto c (.returning .done) ∨
      ∃ item, s.items.lookup key = some item ∧ s' = s.goto c (.copied key item) := by
  cases h <;> grind [Op.refused, Redis.Adds]

theorem Acts.of_copied {item : Item} (h : Acts c s s') (hs : s.stage c = .copied key item) :
    item.expired s.clock = false ∧ s' = s.goto c (.returning (.hit item.value)) ∨
      item.expired s.clock = true ∧ s' = s.goto c (.judged key) := by
  cases h <;> grind

theorem Acts.of_judged (h : Acts c s s') (hs : s.stage c = .judged key) :
    s' = s.leave c (Memory.dropExpired s.clock s.items key) .done := by
  cases h <;> grind

variable {current : ℤ}

theorem Acts.of_adding (h : Acts c s s') (hs : s.stage c = .adding key delta ttl current) :
    s' = s.leave c
        (s.items.insert key (Memory.increased s.items key (current + delta) ttl s.clock))
        (.count (current + delta)) := by
  cases h <;> grind

theorem Acts.of_adds (h : Acts c s s') (hs : s.stage c = .called op)
    (hop : Redis.Adds op key delta ttl) :
    addOverflows (countOf (live s.items s.clock key)) delta = true ∧
        s' = s.goto c (.returning .error) ∨
      addOverflows (countOf (live s.items s.clock key)) delta = false ∧
        s' = Machine.goto { s with lock := some c } c
          (.adding key delta ttl (countOf (live s.items s.clock key))) := by
  cases h <;> grind [Op.refused, Redis.Adds]

theorem Acts.of_refused (h : Acts c s s') (hs : s.stage c = .called op) (hop : op.refused = true) :
    s' = s.goto c (.returning .error) := by
  cases h <;> grind [Op.refused, Redis.Adds]

theorem Acts.of_set {value : ℤ} (h : Acts c s s') (hs : s.stage c = .called (.set key value)) :
    s' = s.leave c (s.items.insert key ⟨value, none⟩) .done := by
  cases h <;> grind [Op.refused, Redis.Adds]

theorem Acts.of_delete {keys : List String} (h : Acts c s s')
    (hs : s.stage c = .called (.delete keys)) :
    s' = s.leave c (Memory.delete s.items keys) .done := by
  cases h <;> grind [Op.refused, Redis.Adds]

theorem Acts.of_decrementExisting (h : Acts c s s')
    (hs : s.stage c = .called (.decrementExisting key delta)) :
    s' = s.leave c (Memory.decrementExisting s.items key delta s.clock).2
      (Memory.decrementExisting s.items key delta s.clock).1 := by
  cases h <;> grind [Op.refused, Redis.Adds]

/-- What a step of the janitor does. -/
inductive Sweeps (s : Machine ι) : Machine ι → Prop
  | starts (hjanitor : s.janitor = .idle) : Sweeps s { s with janitor := .started s.clock }
  | snapshots (now : ℤ) (order : List String) (hjanitor : s.janitor = .started now)
      (hlock : s.lock = none) : Sweeps s { s with janitor := .sweeping now order }
  | ends (now : ℤ) (hjanitor : s.janitor = .sweeping now []) : Sweeps s { s with janitor := .idle }
  | batch (now : ℤ) (keys : List String) (hjanitor : s.janitor = .sweeping now keys)
      (hlock : s.lock = none) :
      Sweeps s { s with
        items := Memory.sweepBatch now (keys.take memorySweepBatchSize) s.items
        janitor := .sweeping now (keys.drop memorySweepBatchSize) }

theorem sweeps_of_step {order : List String} (h : Step s (.sweep order) s') : Sweeps s s' := by
  change s.sweep order = some s' at h
  unfold Machine.sweep at h
  split at h
  · rename_i hjanitor
    cases h
    exact .starts hjanitor
  · rename_i now hjanitor
    split_ifs at h
    rename_i hcond
    obtain ⟨hlock, -⟩ := not_or.1 hcond
    rw [Bool.not_eq_true, Option.isSome_eq_false_iff, Option.isNone_iff_eq_none] at hlock
    cases h
    exact .snapshots now order hjanitor hlock
  · rename_i now hjanitor
    cases h
    exact .ends now hjanitor
  · rename_i now keys _ hjanitor
    split_ifs at h
    rename_i hlock
    rw [Bool.not_eq_true, Option.isSome_eq_false_iff, Option.isNone_iff_eq_none] at hlock
    cases h
    exact .batch now keys hjanitor hlock

theorem step_call (h : Step s (.call c op) s') :
    s.stage c = .idle ∧ s' = s.goto c (.called op) := by
  change (if s.stage c = .idle then some (s.goto c (.called op)) else none) = some s' at h
  split_ifs at h
  rename_i hstage
  cases h
  exact ⟨hstage, rfl⟩

theorem step_ret {reply : Reply} (h : Step s (.ret c reply) s') :
    s.stage c = .returning reply ∧ s' = s.goto c .idle := by
  change (if s.stage c = .returning reply then some (s.goto c .idle) else none) = some s' at h
  split_ifs at h
  rename_i hstage
  cases h
  exact ⟨hstage, rfl⟩

theorem step_tick {d : ℕ} (h : Step s (.tick d) s') : s' = { s with clock := s.clock + d } :=
  (Option.some.inj h).symm

theorem clock_of_acts (h : Acts c s s') : s'.clock = s.clock := by
  cases h <;> rfl

omit [DecidableEq ι] in
theorem clock_of_sweeps (h : Sweeps s s') : s'.clock = s.clock := by
  cases h <;> rfl

/-- The clock never goes back. -/
theorem clock_le_of_step (h : Step s e s') : s.clock ≤ s'.clock := by
  cases e with
  | tick d =>
    rw [step_tick h]
    exact le_add_of_nonneg_right (Int.natCast_nonneg d)
  | call c op => rw [(step_call h).2, goto_clock]
  | act c => rw [clock_of_acts (acts_of_step h)]
  | ret c reply => rw [(step_ret h).2, goto_clock]
  | sweep order => rw [clock_of_sweeps (sweeps_of_step h)]

theorem clock_le_of_run (h : Run Step s es s') : s.clock ≤ s'.clock := by
  induction h with
  | nil s => exact le_rfl
  | cons hstep _ ih => exact (clock_le_of_step hstep).trans ih

theorem stage_of_acts (h : Acts c s s') {c' : ι} (hne : c' ≠ c) : s'.stage c' = s.stage c' := by
  cases h <;> exact goto_stage_ne hne _

omit [DecidableEq ι] in
theorem stage_of_sweeps (h : Sweeps s s') : s'.stage = s.stage := by
  cases h <;> rfl

/-- A caller stays where it is while others take steps. -/
theorem stage_of_step (h : Step s e s') (hactor : e.actor ≠ some c) : s'.stage c = s.stage c := by
  cases e with
  | tick d => rw [step_tick h]
  | call c' op =>
    rw [(step_call h).2]
    exact goto_stage_ne (fun heq => hactor (by rw [heq]; rfl)) _
  | act c' => exact stage_of_acts (acts_of_step h) fun heq => hactor (by rw [heq]; rfl)
  | ret c' reply =>
    rw [(step_ret h).2]
    exact goto_stage_ne (fun heq => hactor (by rw [heq]; rfl)) _
  | sweep order => rw [stage_of_sweeps (sweeps_of_step h)]

/-! ### The invariant -/

/-- What holds of every state a run reaches. -/
structure Inv (s : Machine ι) : Prop where
  /-- The lock is held between two steps by the caller that is in the middle of an increment. -/
  locked : ∀ c key delta ttl current, s.stage c = .adding key delta ttl current → s.lock = some c
  /-- The count such a caller adds to is the one it found at an earlier time. -/
  found : ∀ c key delta ttl current, s.stage c = .adding key delta ttl current →
    ∃ now ≤ s.clock, current = countOf (live s.items now key)
  safe : ∀ c key delta ttl current, s.stage c = .adding key delta ttl current →
    addOverflows current delta = false ∧ 0 ≤ ttl
  /-- A sweep judges by an earlier time. -/
  sweeping : ∀ now keys, s.janitor = .sweeping now keys → now ≤ s.clock
  started : ∀ now, s.janitor = .started now → now ≤ s.clock

omit [DecidableEq ι] in
theorem inv_new (t : ℤ) : Inv (new t : Machine ι) where
  locked _ _ _ _ _ h := by cases h
  found _ _ _ _ _ h := by cases h
  safe _ _ _ _ _ h := by cases h
  sweeping _ _ h := by cases h
  started _ h := by cases h

omit [DecidableEq ι] in
/-- Nobody is in the middle of an increment while the lock is free. -/
theorem Inv.free (h : Inv s) (hlock : s.lock = none) :
    s.stage c ≠ .adding key delta ttl current := by
  intro hstage
  rw [h.locked c _ _ _ _ hstage] at hlock
  cases hlock

/-- A caller that goes on, and changes no item, to a stage that holds no lock. -/
theorem Inv.goto (h : Inv s) {stage : Stage} (hstage : ∀ k d t n, stage ≠ .adding k d t n) :
    Inv (s.goto c stage) := by
  have hold : ∀ {c' k d t n}, (s.goto c stage).stage c' = .adding k d t n →
      s.stage c' = .adding k d t n := by
    intro c' k d t n hc'
    by_cases heq : c' = c
    · subst heq
      rw [goto_stage] at hc'
      exact absurd hc' (hstage k d t n)
    · rwa [goto_stage_ne heq] at hc'
  exact ⟨fun c' k d t n hc' => h.locked c' k d t n (hold hc'),
    fun c' k d t n hc' => h.found c' k d t n (hold hc'),
    fun c' k d t n hc' => h.safe c' k d t n (hold hc'), h.sweeping, h.started⟩

/-- A caller that gives the lock back: nobody else is in the middle of an increment. -/
theorem Inv.leave (h : Inv s) (hlock : s.lock = none ∨ s.lock = some c) (items : Items)
    (reply : Reply) : Inv (s.leave c items reply) := by
  have hnone : ∀ {c' k d t n}, (s.leave c items reply).stage c' ≠ .adding k d t n := by
    intro c' k d t n hc'
    by_cases heq : c' = c
    · subst heq
      rw [Machine.leave, goto_stage] at hc'
      cases hc'
    · rw [Machine.leave, goto_stage_ne heq] at hc'
      have hholds := h.locked c' k d t n hc'
      obtain hlock | hlock := hlock <;> rw [hlock] at hholds
      · cases hholds
      · exact heq (Option.some.inj hholds).symm
  exact ⟨fun c' k d t n hc' => absurd hc' hnone, fun c' k d t n hc' => absurd hc' hnone,
    fun c' k d t n hc' => absurd hc' hnone, h.sweeping, h.started⟩

theorem inv_of_acts (h : Acts c s s') (hinv : Inv s) : Inv s' := by
  cases h with
  | refused | missing | copies | hits | judges | overflows => exact hinv.goto (by simp)
  | drops key hstage hlock => exact hinv.leave (.inl hlock) _ _
  | sets key value hstage hlock => exact hinv.leave (.inl hlock) _ _
  | deletes keys hstage hlock => exact hinv.leave (.inl hlock) _ _
  | reads op key delta ttl hstage hop hlock hover =>
    have honly : ∀ {c' k d t n}, (Machine.goto { s with lock := some c } c
        (.adding key delta ttl (countOf (live s.items s.clock key)))).stage c' = .adding k d t n →
        c' = c ∧ k = key ∧ d = delta ∧ t = ttl ∧ n = countOf (live s.items s.clock key) := by
      intro c' k d t n hc'
      by_cases heq : c' = c
      · subst heq
        rw [goto_stage] at hc'
        cases hc'
        exact ⟨rfl, rfl, rfl, rfl, rfl⟩
      · rw [goto_stage_ne heq] at hc'
        exact absurd hc' (hinv.free hlock)
    have httl : 0 ≤ ttl := by
      obtain ⟨-, h⟩ | ⟨-, h⟩ := hop <;> omega
    refine ⟨fun c' k d t n hc' => ?_, fun c' k d t n hc' => ?_, fun c' k d t n hc' => ?_,
      hinv.sweeping, hinv.started⟩
    · rw [(honly hc').1]
      rfl
    · obtain ⟨-, rfl, -, -, rfl⟩ := honly hc'
      exact ⟨s.clock, le_rfl, rfl⟩
    · obtain ⟨-, rfl, rfl, rfl, rfl⟩ := honly hc'
      exact ⟨hover, httl⟩
  | adds key delta ttl current hstage hlock => exact hinv.leave (.inr hlock) _ _
  | decrements key delta hstage hlock => exact hinv.leave (.inl hlock) _ _

omit [DecidableEq ι] in
theorem inv_of_sweeps (h : Sweeps s s') (hinv : Inv s) : Inv s' := by
  cases h with
  | starts hjanitor =>
    refine ⟨hinv.locked, hinv.found, hinv.safe, by simp, ?_⟩
    rintro now ⟨⟩
    exact le_rfl
  | snapshots now order hjanitor hlock =>
    refine ⟨hinv.locked, hinv.found, hinv.safe, ?_, by simp⟩
    rintro _ keys ⟨⟩
    exact hinv.started now hjanitor
  | ends now hjanitor => exact ⟨hinv.locked, hinv.found, hinv.safe, by simp, by simp⟩
  | batch now keys hjanitor hlock =>
    refine ⟨fun c' k d t n hc' => absurd hc' (hinv.free hlock),
      fun c' k d t n hc' => absurd hc' (hinv.free hlock),
      fun c' k d t n hc' => absurd hc' (hinv.free hlock), ?_, by simp⟩
    rintro _ _ ⟨⟩
    exact hinv.sweeping now keys hjanitor

theorem inv_of_step (s : Machine ι) (e : Event ι) (s' : Machine ι) (h : Step s e s') (hinv : Inv s) :
    Inv s' := by
  cases e with
  | tick d =>
    have hle := clock_le_of_step h
    rw [step_tick h] at hle ⊢
    refine ⟨hinv.locked, fun c' k d t n hc' => ?_, hinv.safe,
      fun now keys hj => (hinv.sweeping now keys hj).trans hle,
      fun now hj => (hinv.started now hj).trans hle⟩
    obtain ⟨now, hnow, hcurrent⟩ := hinv.found c' k d t n hc'
    exact ⟨now, hnow.trans hle, hcurrent⟩
  | call c op =>
    rw [(step_call h).2]
    exact hinv.goto (by simp)
  | act c => exact inv_of_acts (acts_of_step h) hinv
  | ret c reply =>
    rw [(step_ret h).2]
    exact hinv.goto (by simp)
  | sweep order => exact inv_of_sweeps (sweeps_of_step h) hinv

/-- The caller is about to write a sum whose count, not zero, has expired since it was found. -/
def Machine.Straddles (s : Machine ι) (c : ι) : Prop :=
  ∃ key delta ttl item, s.stage c = .adding key delta ttl item.value ∧
    s.items.lookup key = some item ∧ item.value ≠ 0 ∧ item.expired s.clock = true

omit [DecidableEq ι] in
/-- **Two readings of the clock.** At the second one the count found at the first is the count of the
key, or it has expired in between. -/
theorem Inv.current_eq (h : Inv s) (hstage : s.stage c = .adding key delta ttl current)
    (hwhole : ¬s.Straddles c) : current = countOf (live s.items s.clock key) := by
  obtain ⟨now, hle, rfl⟩ := h.found c key delta ttl current hstage
  have hlater := live_later s.items hle key
  cases hthen : live s.items now key with
  | none =>
    rw [hthen] at hlater
    rw [hlater]
    rfl
  | some item =>
    rw [hthen, Option.filter_some] at hlater
    cases hexpired : item.expired s.clock with
    | false =>
      rw [hexpired] at hlater
      rw [hlater]
      rfl
    | true =>
      rw [hexpired] at hlater
      rw [hlater]
      by_contra hzero
      rw [hthen] at hstage
      exact hwhole ⟨key, delta, ttl, item, hstage, (live_eq_some_iff.1 hthen).1, hzero, hexpired⟩

theorem inv_of_run {t : ℤ} (h : Run Step (new t) es s) : Inv s :=
  h.preserves inv_of_step (inv_new t)

end Gombit.Cache
