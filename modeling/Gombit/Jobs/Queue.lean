import Mathlib.Data.Int.Order.Basic
import Mathlib.Order.Basic

/-!
# The queue contract

The data the queue drivers exchange with their callers (`jobs/queue.go`, `jobs/job.go`,
`jobs/failed.go`, `jobs/unique.go`): envelopes, deliveries, failures, uniqueness keys, the
errors, and the operations of `Queue` and `OnceStore` as one type, `Op`, with their answers,
`Answer`.

An instant (`time.Time`) is an integer, counted in nanoseconds from the zero time, so `IsZero` is
`= 0`; a `time.Duration` is an integer number of nanoseconds.
Errors keep what their message says: the sentinel they wrap is the constructor, and the values
they are formatted with are its arguments.
-/

namespace Gombit.Jobs

/-! ## Names -/

/-- A letter or digit a name may start with. -/
def nameHead (r : Char) : Bool := ('a' ≤ r && r ≤ 'z') || ('0' ≤ r && r ≤ '9')

/-- A separator a name may have after its first character. -/
def nameSeparator (r : Char) : Bool := r = '_' || r = '.' || r = ':' || r = '-'

/-- `config.ValidJobName`: 1-128 bytes of lower case, digits and separators, starting with a
letter or digit. -/
def validName (name : String) : Bool :=
  match name.toList with
  | [] => false
  | r :: rest =>
    name.utf8ByteSize ≤ 128 && nameHead r && rest.all fun c => nameHead c || nameSeparator c

/-! ## Envelopes, failures, deliveries -/

/-- A job as a driver stores it. -/
structure Envelope where
  id : String
  name : String
  version : ℤ
  payload : String
  metadata : List (String × String)
  enqueuedAt : ℤ
  /-- The 1-based delivery attempt, maintained by the driver. -/
  attempt : ℕ
  deriving DecidableEq

/-- Why running a job failed. -/
inductive Kind
  | none
  | unknownJob
  | decode
  | unsupportedVersion
  | panic
  | timeout
  | upgrade
  | handler
  deriving DecidableEq

/-- Why a worker gave up on a job, recorded by `Bury`. -/
structure Failure where
  reason : String
  kind : Kind
  error : String
  at_ : ℤ
  deriving DecidableEq

/-- The failure as `Bury` records it: its time is now when the caller left it zero. -/
def Failure.stamp (f : Failure) (now : ℤ) : Failure :=
  if f.at_ = 0 then { f with at_ := now } else f

/-- Reasons a worker gives up on a job. -/
def reasonExhausted : String := "attempts exhausted"
def reasonPermanent : String := "permanent failure"
def reasonUndecodable : String := "undecodable envelope"

/-- A job a worker gave up on, as the queue lists it. -/
structure FailedJob where
  queue : String
  envelope : Envelope
  rawEnvelope : Option String
  attempts : ℕ
  failure : Failure
  deriving DecidableEq

/-- A dispatch's uniqueness claim. -/
structure UniqueKey where
  key : String
  ttl : ℤ
  untilDone : Bool
  deriving DecidableEq

/-- What `BeginOnce` found for a key. -/
inductive OnceState
  | acquired
  | done
  | busy
  deriving DecidableEq

/-- `onceDoneMarker`: the holder of a key whose effect completed. -/
def onceDoneMarker : String := "done"

/-- `QueueStats`: a queue's jobs by state; `oldestReady` is the zero time when none is ready. -/
structure QueueStats where
  ready : ℕ
  scheduled : ℕ
  reserved : ℕ
  failed : ℕ
  oldestReady : ℤ
  deriving DecidableEq

/-! ## Errors -/

/-- The errors of the queue operations. -/
inductive Err
  /-- `ErrInvalidQueue`. -/
  | invalidQueue (queue : String)
  /-- "envelope has no ID", for the job name. -/
  | noID (name : String)
  | closed
  | noJob
  /-- `ErrLeaseLost`, for the job id. -/
  | leaseLost (id : String)
  /-- `ErrLeaseLost`, for the `Once` key whose lock expired. -/
  | onceLost (key : String)
  | duplicateJob (id queue : String)
  /-- `*DuplicateError`. -/
  | duplicateDispatch (queue key holderID : String)
  | notFailed (id queue : String)
  | emptyUniqueKey
  | uniqueTTL (key : String) (ttl : ℤ)
  /-- "lease must be positive", of `reserve` and `extend`. -/
  | leaseNotPositive (lease : ℤ)
  /-- An envelope or failure that does not encode or decode. -/
  | codec (id : String)
  /-- The storage server refused the command. -/
  | server
  deriving DecidableEq

/-- `UniqueKey.validate`. -/
def UniqueKey.validate (u : UniqueKey) : Option Err :=
  if u.key = "" then some .emptyUniqueKey
  else if u.ttl ≤ 0 then some (.uniqueTTL u.key u.ttl)
  else none

/-- A job leased by `Reserve`. -/
structure Delivery where
  queue : String
  envelope : Envelope
  receipt : String
  leaseExpired : Bool
  availableAt : ℤ
  /-- Why the stored envelope does not decode, when it does not. -/
  err : Option String
  deriving DecidableEq

/-! ## Operations -/

/-- The operations of `Queue` and `OnceStore`. The receipt of a `reserve` is the one
`uuid.NewString` draws. -/
inductive Op
  | push (queue : String) (env : Envelope) (at_ : ℤ)
  | pushUnique (queue : String) (env : Envelope) (at_ : ℤ) (unique : UniqueKey)
  | reserve (queues : List String) (lease : ℤ) (receipt : String)
  | ack (d : Delivery)
  | release (d : Delivery) (at_ : ℤ)
  | postpone (d : Delivery) (at_ : ℤ)
  | extend (d : Delivery) (lease : ℤ)
  | bury (d : Delivery) (f : Failure)
  | failed (queue : String) (limit : ℤ)
  | failedJob (queue id : String)
  | retryFailed (queue id : String)
  | forgetFailed (queue id : String)
  | purgeFailed (queue : String) (before : ℤ)
  | stats (queue : String)
  | beginOnce (key token : String) (lock : ℤ)
  | finishOnce (key token : String) (keep : ℤ)
  | abandonOnce (key token : String)
  | close
  deriving DecidableEq

/-- The answers of the operations. -/
inductive Answer
  | ok
  | delivery (d : Delivery)
  | failedJobs (jobs : List FailedJob)
  | failedJob (job : FailedJob)
  | purged (n : ℕ)
  | stats (st : QueueStats)
  | once (st : OnceState)
  | error (e : Err)
  deriving DecidableEq

/-- A caller's time, or now when it is zero or in the past. -/
def atLeast (at_ now : ℤ) : ℤ := if at_ = 0 ∨ at_ < now then now else at_

/-- The delivery an operation settles, for the four that end a lease. -/
def Op.settles : Op → Option Delivery
  | .ack d => some d
  | .release d _ => some d
  | .postpone d _ => some d
  | .bury d _ => some d
  | _ => none

end Gombit.Jobs
