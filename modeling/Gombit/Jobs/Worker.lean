import Gombit.Jobs.Backoff
import Gombit.Jobs.Leases

/-!
# Workers

A job's execution policy (`jobs/policy.go`, and the part of `jobs/registry.go` that resolves it),
and a worker's decisions about a delivery (`jobs/worker.go`): what it does with a delivery it has
just reserved (`afterReserve`), and what it does once the handler has returned (`afterRun`).

`WorkStep` puts any number of workers on one `MemoryQueue`. A worker may die, or a queue call of
it fail, at any point: before the queue sees the call, or after it took effect.
-/

namespace Gombit.Jobs

/-! ## Policies -/

/-- `Options`: a job's execution policy. Zero fields take the registry's defaults. -/
structure Options where
  maxAttempts : ℤ
  timeout : ℤ
  /-- How long to wait after the given failure, counted from 1. -/
  backoff : Option (ℕ → ℤ)

/-- `NoTimeout`. -/
def noTimeout : ℤ := -1

/-- `DefaultMaxAttempts`. -/
def defaultMaxAttempts : ℤ := 5

/-- `DefaultBackoff`: 10 seconds, up to 10 minutes. -/
def defaultBackoff (attempt : ℕ) : ℤ :=
  (Backoff.exponential 10000000000 600000000000 attempt).toInt

/-- What `Options.validate` refuses. -/
inductive OptionsErr
  | negativeAttempts (n : ℤ)
  | negativeTimeout (d : ℤ)
  deriving DecidableEq

namespace Options

/-- The zero value. -/
def zero : Options := ⟨0, 0, none⟩

def validate (o : Options) : Option OptionsErr :=
  if o.maxAttempts < 0 then some (.negativeAttempts o.maxAttempts)
  else if o.timeout < 0 ∧ o.timeout ≠ noTimeout then some (.negativeTimeout o.timeout)
  else none

/-- Fill the zero fields from `defaults`, then from the package's defaults. -/
def resolve (o defaults : Options) : Options :=
  let attempts := if o.maxAttempts = 0 then defaults.maxAttempts else o.maxAttempts
  let timeout := if o.timeout = 0 then defaults.timeout else o.timeout
  { maxAttempts := if attempts = 0 then defaultMaxAttempts else attempts
    timeout := if timeout = noTimeout then 0 else timeout
    backoff := some ((o.backoff.or defaults.backoff).getD defaultBackoff) }

end Options

/-- The policy `Register` gives a job, from the registry's defaults and the job's own options. -/
def register (defaults : Options) (opts : Option Options) : Except OptionsErr Options :=
  match opts.bind Options.validate with
  | some e => .error e
  | none =>
    let resolved := (opts.getD .zero).resolve defaults
    match resolved.validate with
    | some e => .error e
    | none => .ok resolved

/-- The registered jobs' policies. -/
structure Registry where
  defaults : Options
  byName : String → Option Options
  /-- A policy in the registry is one `register` returned. -/
  registered : ∀ name o, byName name = some o → ∃ opts, register defaults opts = .ok o

/-- `Registry.Options`. -/
def Registry.options (reg : Registry) (name : String) : Options :=
  (reg.byName name).getD (Options.zero.resolve reg.defaults)

variable {reg : Registry} {name : String} {policy : Options} {d : Delivery}

/-- A registered job runs at least once. -/
theorem Registry.one_le_maxAttempts {o : Options} (h : reg.byName name = some o) :
    1 ≤ o.maxAttempts := by
  obtain ⟨opts, hreg⟩ := reg.registered name o h
  unfold register at hreg
  split at hreg
  · cases hreg
  dsimp only at hreg
  split at hreg
  · cases hreg
  rename_i hvalid
  cases hreg
  have hne : ((opts.getD .zero).resolve reg.defaults).maxAttempts ≠ 0 := by
    simp only [Options.resolve, defaultMaxAttempts]
    split_ifs <;> omega
  unfold Options.validate at hvalid
  split at hvalid
  · cases hvalid
  · omega

theorem Registry.options_of_byName {o : Options} (h : reg.byName name = some o) :
    reg.options name = o := by
  simp [options, h]

/-! ## A worker's decisions -/

/-- An error of `Registry.Run`, as the worker looks at it: its kind (`Classify`), whether the
handler marked it `Permanent`, whether it wraps `ErrInProgress`, and its text. -/
structure RunErr where
  kind : Kind
  permanent : Bool
  inProgress : Bool
  text : String
  deriving DecidableEq

/-- `IsPermanent`: no retry can fix it. -/
def RunErr.isPermanent (err : RunErr) : Bool := err.permanent || decide (err.kind = .decode)

/-- What a worker records of a delivery. A delivery it hands back unrun it does not record. -/
inductive Result
  | succeeded
  | retried
  | failed
  | interrupted
  | postponed
  | abandoned
  | undecodable
  | unsettled
  | handedBack
  deriving DecidableEq

/-- A queue call that ends a worker's business with a delivery, and the result to record when it
succeeds. -/
structure Call where
  result : Result
  op : Op
  deriving DecidableEq

/-- `settled`: the result to record for an outcome, by what the queue call answered. -/
def settled (result : Result) : Answer → Result
  | .error (.leaseLost _) => .abandoned
  | .error _ => .unsettled
  | _ => result

/-- `giveUp`: set the delivery aside with the failed jobs. -/
def giveUp (d : Delivery) (err : RunErr) (now : ℤ) : Call where
  result := .failed
  op := .bury d
    { reason := if err.isPermanent then reasonPermanent else reasonExhausted
      kind := err.kind
      error := err.text
      at_ := now }

/-- The error of a delivery whose previous worker vanished on the last attempt. -/
def exhaustErr : RunErr where
  kind := .handler
  permanent := false
  inProgress := false
  text := "previous worker did not settle the job before its lease expired"

/-- What a worker does with a delivery it has just reserved, at `now` on its own clock: the call
it makes at once, or nothing when it runs the handler. A delivery that cannot be run is set aside;
one that arrives when the worker is `stopping` is handed back. -/
def afterReserve (policy : Options) (stopping : Bool) (now : ℤ) (d : Delivery) : Option Call :=
  match d.err with
  | some text => some ⟨.undecodable, .bury d ⟨reasonUndecodable, .decode, text, now⟩⟩
  | none =>
    if d.leaseExpired = true ∧ policy.maxAttempts < d.envelope.attempt then
      some (giveUp d exhaustErr now)
    else if stopping then some ⟨.handedBack, .release d now⟩
    else none

/-- What a worker does when the handler has returned `err` (`none` for success): the call it
makes, or nothing when a renewal found the lease lost. `canceled` tells that the worker canceled
the run, at the end of the shutdown timeout. -/
def afterRun (policy : Options) (lost canceled : Bool) (err : Option RunErr) (now : ℤ)
    (d : Delivery) : Option Call :=
  if lost then none
  else
    match err with
    | none => some ⟨.succeeded, .ack d⟩
    | some err =>
      let wait := (policy.backoff.getD defaultBackoff) d.envelope.attempt
      if canceled then some ⟨.interrupted, .release d now⟩
      else if err.inProgress && !err.isPermanent then some ⟨.postponed, .postpone d (now + wait)⟩
      else if err.isPermanent = true ∨ policy.maxAttempts ≤ d.envelope.attempt then
        some (giveUp d err now)
      else some ⟨.retried, .release d (now + wait)⟩

/-- Every call of a worker settles the delivery it is about. -/
theorem settles_of_afterReserve {stopping : Bool} {now : ℤ}
    {c : Call} (h : afterReserve policy stopping now d = some c) : c.op.settles = some d := by
  unfold afterReserve giveUp at h
  repeat' split at h
  all_goals cases h <;> rfl

theorem settles_of_afterRun {lost canceled : Bool} {err : Option RunErr}
    {now : ℤ} {c : Call} (h : afterRun policy lost canceled err now d = some c) :
    c.op.settles = some d := by
  unfold afterRun giveUp at h
  dsimp only at h
  repeat' split at h
  all_goals cases h <;> rfl

/-! ## Workers on a queue -/

/-- What a worker is doing with a delivery. -/
inductive Phase
  /-- The handler runs. -/
  | running
  /-- The call is to be made. -/
  | settling (c : Call)
  deriving DecidableEq

structure Task where
  delivery : Delivery
  phase : Phase
  deriving DecidableEq

/-- A queue, and the deliveries its workers are busy with. -/
structure Workers where
  clocked : Clocked
  tasks : List Task

def Workers.init (t : ℤ) : Workers := ⟨.init t, []⟩

/-- The operations that are not a worker's. -/
def Op.isAdmin : Op → Bool
  | .reserve _ _ _ => false
  | op => op.leases.isNone

/-- What happens between workers and their queue. Where an event of the queue is given, the call
took effect. -/
inductive WorkEvent
  /-- A push, a retry of a failed job, an inspection, `Close`. -/
  | admin (e : Event)
  /-- A worker reserves; `now` is its own clock. -/
  | reserve (e : Event) (stopping : Bool) (now : ℤ)
  /-- A worker reserves, and dies or does not get the answer. -/
  | reserveLost (e : Event)
  /-- A worker renews the lease of a job it runs. -/
  | renew (d : Delivery) (e : Event)
  /-- The handler has returned. -/
  | outcome (d : Delivery) (lost canceled : Bool) (err : Option RunErr) (now : ℤ)
  /-- A worker's last call for a delivery took effect, whether or not it gets the answer. -/
  | settle (c : Call) (e : Event)
  /-- The worker died, or its last call for the delivery failed without an effect. -/
  | gone (d : Delivery)

/-- The phase of a delivery a worker decided about: run it, or make the call. -/
def Phase.of : Option Call → Phase
  | none => .running
  | some c => .settling c

/-- One step of the workers of a registry and their queue. -/
inductive WorkStep (reg : Registry) : Workers → WorkEvent → Workers → Prop
  | admin {s : Workers} {e : Event} {s' : Clocked} (h : Step s.clocked e s')
      (hop : e.op.isAdmin = true) : WorkStep reg s (.admin e) ⟨s', s.tasks⟩
  | idle {s : Workers} {e : Event} {s' : Clocked} {stopping : Bool} {now : ℤ}
      (h : Step s.clocked e s') (hop : e.op.draws ≠ []) (hd : e.delivered = none) :
      WorkStep reg s (.reserve e stopping now) ⟨s', s.tasks⟩
  | reserve {s : Workers} {e : Event} {s' : Clocked} {stopping : Bool} {now : ℤ} {d : Delivery}
      (h : Step s.clocked e s') (hd : e.delivered = some d) :
      WorkStep reg s (.reserve e stopping now)
        ⟨s', ⟨d, .of (afterReserve (reg.options d.envelope.name) stopping now d)⟩ :: s.tasks⟩
  | reserveLost {s : Workers} {e : Event} {s' : Clocked} (h : Step s.clocked e s')
      (hop : e.op.draws ≠ []) : WorkStep reg s (.reserveLost e) ⟨s', s.tasks⟩
  | renew {s : Workers} {e : Event} {s' : Clocked} {d : Delivery} {lease : ℤ}
      (h : Step s.clocked e s') (ht : ⟨d, .running⟩ ∈ s.tasks) (hop : e.op = .extend d lease) :
      WorkStep reg s (.renew d e) ⟨s', s.tasks⟩
  | outcome {s : Workers} {d : Delivery} {lost canceled : Bool} {err : Option RunErr} {now : ℤ}
      {c : Call} (ht : ⟨d, .running⟩ ∈ s.tasks)
      (hc : afterRun (reg.options d.envelope.name) lost canceled err now d = some c) :
      WorkStep reg s (.outcome d lost canceled err now)
        ⟨s.clocked, ⟨d, .settling c⟩ :: s.tasks.erase ⟨d, .running⟩⟩
  | abandon {s : Workers} {d : Delivery} {lost canceled : Bool} {err : Option RunErr} {now : ℤ}
      (ht : ⟨d, .running⟩ ∈ s.tasks)
      (hc : afterRun (reg.options d.envelope.name) lost canceled err now d = none) :
      WorkStep reg s (.outcome d lost canceled err now)
        ⟨s.clocked, s.tasks.erase ⟨d, .running⟩⟩
  | settle {s : Workers} {e : Event} {s' : Clocked} {d : Delivery} {c : Call}
      (h : Step s.clocked e s') (ht : ⟨d, .settling c⟩ ∈ s.tasks) (hop : e.op = c.op) :
      WorkStep reg s (.settle c e) ⟨s', s.tasks.erase ⟨d, .settling c⟩⟩
  | gone {s : Workers} {t : Task} (ht : t ∈ s.tasks) :
      WorkStep reg s (.gone t.delivery) ⟨s.clocked, s.tasks.erase t⟩

end Gombit.Jobs
