import Gombit.Foundations.Table
import Gombit.Jobs.Queue
import Mathlib.Data.List.Sort

/-!
# The in-memory queue

`MemoryQueue` (`jobs/memory.go`), operation by operation. Every operation runs under the queue's
mutex, so it is a function from a queue to an answer and a queue, and an interleaving of callers
is a sequence of operations.

An operation reads the clock (`q.now()`) at up to three places, and the clock may advance between
two readings: `Clock` holds what each place reads. The receipt a `Reserve` draws is an argument of
the operation.

`MemoryQueue.keyed` is part of the structure: a job is stored under its own queue and id, so no
later proof has to re-establish it.
-/

namespace Gombit.Jobs

/-- What the calls of `q.now()` in the text of one operation return, in program order. -/
structure Clock where
  fst : ℤ
  snd : ℤ
  trd : ℤ
  deriving DecidableEq

/-- A clock that does not advance during the operation. -/
def Clock.const (t : ℤ) : Clock := ⟨t, t, t⟩

/-- A job id is unique per queue; a uniqueness key is claimed per queue. -/
structure MemoryKey where
  queue : String
  id : String
  deriving DecidableEq

/-- A held key: a uniqueness claim (its holder is a job id) or a `Once` record (its holder is the
lock token, or `onceDoneMarker`). -/
structure MemoryClaim where
  holder : String
  expires : ℤ
  deriving DecidableEq

structure MemoryJob where
  queue : String
  env : Envelope
  attempts : ℕ
  availableAt : ℤ
  seq : ℕ
  reserved : Bool
  receipt : String
  leaseDeadline : ℤ
  failure : Option Failure
  raw : Option String
  unique : String
  uniqueTTL : ℤ
  heldUnique : Bool
  deriving DecidableEq

namespace MemoryJob

/-- Where the job is stored. -/
def key (j : MemoryJob) : MemoryKey := ⟨j.queue, j.env.id⟩

/-- Ready and due, or reserved with its lease expired. -/
def available (j : MemoryJob) (now : ℤ) : Bool :=
  if j.failure.isSome then false
  else if j.reserved then j.leaseDeadline ≤ now
  else j.availableAt ≤ now

def readyAt (j : MemoryJob) : ℤ :=
  if j.reserved then j.leaseDeadline else j.availableAt

/-- Available jobs, oldest first: by when they became available, then by push order. -/
def before (j other : MemoryJob) : Bool :=
  if j.readyAt ≠ other.readyAt then j.readyAt < other.readyAt else j.seq < other.seq

/-- A failed job as `Failed` and `FailedJob` return it. -/
def failedJob (j : MemoryJob) (f : Failure) : FailedJob where
  queue := j.queue
  envelope := { j.env with attempt := j.attempts }
  rawEnvelope := j.raw
  attempts := j.attempts
  failure := f

theorem failure_of_available {j : MemoryJob} {now : ℤ} (h : j.available now = true) :
    j.failure = none := by
  by_contra hf
  obtain ⟨f, hf⟩ := Option.ne_none_iff_exists'.1 hf
  simp [available, hf] at h

theorem available_mono {j : MemoryJob} {now now' : ℤ} (hle : now ≤ now')
    (h : j.available now = true) : j.available now' = true := by
  have hf := failure_of_available h
  simp only [available, hf, Option.isSome_none, Bool.false_eq_true, if_false] at h ⊢
  split
  · rename_i hr
    simp only [hr, if_true, decide_eq_true_eq] at h ⊢
    omega
  · rename_i hr
    simp only [hr, Bool.false_eq_true, if_false, decide_eq_true_eq] at h ⊢
    omega

theorem before_iff {j other : MemoryJob} :
    j.before other = true ↔
      j.readyAt < other.readyAt ∨ j.readyAt = other.readyAt ∧ j.seq < other.seq := by
  unfold before
  split <;> simp only [decide_eq_true_eq] <;> omega

theorem before_trans (a b c : MemoryJob) (hab : a.before b = false) (hbc : b.before c = false) :
    a.before c = false := by
  rw [← Bool.not_eq_true, before_iff] at *
  omega

theorem before_asymm (a b : MemoryJob) (hab : a.before b) : b.before a = false := by
  rw [← Bool.not_eq_true, before_iff]
  rw [before_iff] at hab
  omega

end MemoryJob

/-- How many claim operations pass between two sweeps of expired claims. -/
def claimSweepEvery : ℕ := 256

structure MemoryQueue where
  /-- Claim operations since the last sweep. -/
  ops : ℕ
  jobs : Table MemoryKey MemoryJob
  /-- A job is stored under its own queue and id. -/
  keyed : ∀ k j, jobs.lookup k = some j → j.key = k
  /-- By queue and uniqueness key. -/
  uniques : Table MemoryKey MemoryClaim
  /-- By `Once` key. -/
  once : Table String MemoryClaim
  seq : ℕ
  closed : Bool
  deriving DecidableEq

namespace MemoryQueue

/-- `NewMemoryQueue`. -/
def empty : MemoryQueue where
  ops := 0
  jobs := ∅
  keyed := by simp
  uniques := ∅
  once := ∅
  seq := 0
  closed := false

/-! ## Writing the job table -/

/-- Store a job, new or changed in place. -/
def setJob (q : MemoryQueue) (j : MemoryJob) : MemoryQueue :=
  { q with
    jobs := q.jobs.insert j.key j
    keyed := by
      intro k i h
      by_cases hk : k = j.key
      · subst hk; simp at h; rw [← h]
      · rw [AList.lookup_insert_ne hk] at h; exact q.keyed k i h }

/-- Delete the job stored under `k`. -/
def dropJob (q : MemoryQueue) (k : MemoryKey) : MemoryQueue :=
  { q with
    jobs := q.jobs.erase k
    keyed := by
      intro k' i h
      by_cases hk : k' = k
      · subst hk; simp at h
      · rw [AList.lookup_erase_ne hk] at h; exact q.keyed k' i h }

/-- Delete every job `p` selects. -/
def dropJobs (q : MemoryQueue) (p : MemoryJob → Bool) : MemoryQueue :=
  { q with
    jobs := q.jobs.eraseIf fun _ j => p j
    keyed := by
      intro k i h
      rw [Table.lookup_eraseIf] at h
      exact q.keyed k i (Option.filter_eq_some_iff.1 h).1 }

/-- The jobs, in the order a loop over the map visits them. -/
def jobList (q : MemoryQueue) : List MemoryJob := q.jobs.entries.map Sigma.snd

theorem mem_jobList {q : MemoryQueue} {j : MemoryJob} :
    j ∈ q.jobList ↔ q.jobs.lookup j.key = some j := by
  unfold jobList
  rw [List.mem_map]
  constructor
  · rintro ⟨⟨k, i⟩, h, rfl⟩
    have hk := q.keyed k i (Table.mem_entries_iff.1 h)
    rw [hk]
    exact Table.mem_entries_iff.1 h
  · intro h
    exact ⟨⟨j.key, j⟩, Table.mem_entries_iff.2 h, rfl⟩

/-! ## Claims -/

/-- `sweepClaims`: drop expired claims every `claimSweepEvery` calls. -/
def sweepClaims (q : MemoryQueue) (now : ℤ) : MemoryQueue :=
  if q.ops + 1 < claimSweepEvery then { q with ops := q.ops + 1 }
  else
    { q with
      ops := 0
      uniques := q.uniques.eraseIf fun _ c => decide (c.expires ≤ now)
      once := q.once.eraseIf fun _ c => decide (c.expires ≤ now) }

/-- `releaseUnique`: drop the claim the job holds until done, if it still holds it. -/
def releaseUnique (q : MemoryQueue) (j : MemoryJob) : MemoryQueue :=
  if !j.heldUnique then q
  else
    match q.uniques.lookup ⟨j.queue, j.unique⟩ with
    | some claim =>
      if claim.holder = j.env.id then { q with uniques := q.uniques.erase ⟨j.queue, j.unique⟩ }
      else q
    | none => q

/-! ## Pushing -/

/-- The job `push` stores. Only a claim held until done is remembered by the job. -/
def newJob (q : MemoryQueue) (now : ℤ) (queue : String) (env : Envelope) (at_ : ℤ)
    (unique : Option UniqueKey) : MemoryJob where
  queue := queue
  env := { env with attempt := 0 }
  attempts := 0
  availableAt := atLeast at_ now
  seq := q.seq + 1
  reserved := false
  receipt := ""
  leaseDeadline := 0
  failure := none
  raw := none
  unique := ((unique.filter UniqueKey.untilDone).map UniqueKey.key).getD ""
  uniqueTTL := ((unique.filter UniqueKey.untilDone).map UniqueKey.ttl).getD 0
  heldUnique := (unique.filter UniqueKey.untilDone).isSome

/-- The end of `push`, once the uniqueness key is free: store the job, and its claim. -/
def enqueue (q : MemoryQueue) (now : ℤ) (queue : String) (env : Envelope) (at_ : ℤ)
    (unique : Option UniqueKey) : Answer × MemoryQueue :=
  if (q.jobs.lookup ⟨queue, env.id⟩).isSome then (.error (.duplicateJob env.id queue), q)
  else
    let uniques := match unique with
      | some u => q.uniques.insert ⟨queue, u.key⟩ ⟨env.id, now + u.ttl⟩
      | none => q.uniques
    (.ok, { q with seq := q.seq + 1, uniques := uniques }.setJob
      (q.newJob now queue env at_ unique))

/-- `push`, for a queue name and an envelope. -/
def push (q : MemoryQueue) (clk : Clock) (queue : String) (env : Envelope) (at_ : ℤ)
    (unique : Option UniqueKey) : Answer × MemoryQueue :=
  if !validName queue then (.error (.invalidQueue queue), q)
  else if env.id = "" then (.error (.noID env.name), q)
  else if q.closed then (.error .closed, q)
  else
    match unique with
    | none => q.enqueue clk.trd queue env at_ none
    | some u =>
      let q := q.sweepClaims clk.fst
      match q.uniques.lookup ⟨queue, u.key⟩ with
      | some claim =>
        if clk.snd < claim.expires then
          (.error (.duplicateDispatch queue u.key claim.holder), q)
        else q.enqueue clk.trd queue env at_ (some u)
      | none => q.enqueue clk.trd queue env at_ (some u)

/-- `PushUnique`. -/
def pushUnique (q : MemoryQueue) (clk : Clock) (queue : String) (env : Envelope) (at_ : ℤ)
    (unique : UniqueKey) : Answer × MemoryQueue :=
  match unique.validate with
  | some e => (.error e, q)
  | none => q.push clk queue env at_ (some unique)

/-! ## Leasing -/

/-- The loop of `Reserve` over the jobs of one queue. -/
def next (q : MemoryQueue) (queue : String) (now : ℤ) : Option MemoryJob :=
  firstBy (fun j => decide (j.queue = queue) && j.available now) MemoryJob.before q.jobList

/-- A job as the next delivery leases it. -/
def leaseJob (j : MemoryJob) (now : ℤ) (lease : ℤ) (receipt : String) : MemoryJob :=
  { j with
    attempts := j.attempts + 1
    reserved := true
    receipt := receipt
    leaseDeadline := now + lease }

/-- The delivery of a job. -/
def deliver (j : MemoryJob) (queue receipt : String) : Delivery where
  queue := queue
  envelope := { j.env with attempt := j.attempts + 1 }
  receipt := receipt
  leaseExpired := j.reserved
  availableAt := j.readyAt
  err := none

/-- The loop of `Reserve` over the queues. -/
def reserveFrom (q : MemoryQueue) (now : ℤ) (lease : ℤ) (receipt : String) :
    List String → Answer × MemoryQueue
  | [] => (.error .noJob, q)
  | queue :: queues =>
    match q.next queue now with
    | none => q.reserveFrom now lease receipt queues
    | some j => (.delivery (deliver j queue receipt), q.setJob (leaseJob j now lease receipt))

def reserve (q : MemoryQueue) (clk : Clock) (queues : List String) (lease : ℤ)
    (receipt : String) : Answer × MemoryQueue :=
  if lease ≤ 0 then (.error (.leaseNotPositive lease), q)
  else
    match queues.find? fun queue => !validName queue with
    | some queue => (.error (.invalidQueue queue), q)
    | none =>
      if q.closed then (.error .closed, q) else q.reserveFrom clk.fst lease receipt queues

/-- `leased`: the job `d` holds the current lease of. A lease that expired but that no other
`Reserve` has taken yet still counts. -/
def leased (q : MemoryQueue) (d : Delivery) : Except Err MemoryJob :=
  if q.closed then .error .closed
  else
    match q.jobs.lookup ⟨d.queue, d.envelope.id⟩ with
    | none => .error (.leaseLost d.envelope.id)
    | some j =>
      if !j.reserved || d.receipt = "" || j.receipt ≠ d.receipt then
        .error (.leaseLost d.envelope.id)
      else .ok j

def ack (q : MemoryQueue) (d : Delivery) : Answer × MemoryQueue :=
  match q.leased d with
  | .error e => (.error e, q)
  | .ok j => (.ok, (q.releaseUnique j).dropJob j.key)

/-- A leased job as `release` puts it back; with `uncount`, its attempt is taken back. -/
def releaseJob (q : MemoryQueue) (j : MemoryJob) (now at_ : ℤ) (uncount : Bool) : MemoryJob :=
  { j with
    attempts := if uncount then j.attempts - 1 else j.attempts
    reserved := false
    receipt := ""
    availableAt := atLeast at_ now
    seq := q.seq + 1 }

/-- `release`; with `uncount`, `Postpone`. -/
def release (q : MemoryQueue) (clk : Clock) (d : Delivery) (at_ : ℤ) (uncount : Bool) :
    Answer × MemoryQueue :=
  match q.leased d with
  | .error e => (.error e, q)
  | .ok j =>
    (.ok, { q with seq := q.seq + 1 }.setJob (q.releaseJob j clk.fst at_ uncount))

/-- A leased job with its lease renewed. -/
def extendJob (j : MemoryJob) (now lease : ℤ) : MemoryJob := { j with leaseDeadline := now + lease }

def extend (q : MemoryQueue) (clk : Clock) (d : Delivery) (lease : ℤ) :
    Answer × MemoryQueue :=
  if lease ≤ 0 then (.error (.leaseNotPositive lease), q)
  else
    match q.leased d with
    | .error e => (.error e, q)
    | .ok j => (.ok, q.setJob (extendJob j clk.fst lease))

/-- A leased job as `Bury` sets it aside. -/
def buryJob (j : MemoryJob) (f : Failure) : MemoryJob :=
  { j with
    reserved := false
    receipt := ""
    failure := some f
    heldUnique := false }

def bury (q : MemoryQueue) (clk : Clock) (d : Delivery) (f : Failure) : Answer × MemoryQueue :=
  match q.leased d with
  | .error e => (.error e, q)
  | .ok j => (.ok, (q.releaseUnique j).setJob (buryJob j (f.stamp clk.fst)))

/-! ## Failed jobs -/

/-- The order of `Failed`: most recent first, ties by id descending. -/
def failedBefore (a b : FailedJob) : Bool :=
  if a.failure.at_ ≠ b.failure.at_ then b.failure.at_ < a.failure.at_
  else b.envelope.id < a.envelope.id

/-- The failed jobs of a queue, in the order `Failed` lists them. -/
def failedList (q : MemoryQueue) (queue : String) : List FailedJob :=
  (q.jobList.filterMap fun j =>
    if j.queue = queue then j.failure.map j.failedJob else none).insertionSort
      fun a b => !failedBefore b a

def failed (q : MemoryQueue) (queue : String) (limit : ℤ) : Answer × MemoryQueue :=
  if !validName queue then (.error (.invalidQueue queue), q)
  else if q.closed then (.error .closed, q)
  else
    let out := q.failedList queue
    (.failedJobs (if 0 < limit then out.take limit.toNat else out), q)

/-- `failed`: the failed job `id`, or `ErrNotFailed`. -/
def lookupFailed (q : MemoryQueue) (queue id : String) : Except Err (MemoryJob × Failure) :=
  if q.closed then .error .closed
  else
    match q.jobs.lookup ⟨queue, id⟩ with
    | none => .error (.notFailed id queue)
    | some j =>
      match j.failure with
      | none => .error (.notFailed id queue)
      | some f => .ok (j, f)

def failedJob (q : MemoryQueue) (queue id : String) : Answer × MemoryQueue :=
  match q.lookupFailed queue id with
  | .error e => (.error e, q)
  | .ok (j, f) => (.failedJob (j.failedJob f), q)

/-- A failed job as `RetryFailed` puts it back. -/
def retryJob (q : MemoryQueue) (j : MemoryJob) (now : ℤ) : MemoryJob :=
  { j with
    heldUnique := if j.unique = "" then j.heldUnique else true
    failure := none
    attempts := 0
    availableAt := now
    seq := q.seq + 1 }

def retryFailed (q : MemoryQueue) (clk : Clock) (queue id : String) : Answer × MemoryQueue :=
  match q.lookupFailed queue id with
  | .error e => (.error e, q)
  | .ok (j, _) =>
    if j.unique = "" then (.ok, { q with seq := q.seq + 1 }.setJob (q.retryJob j clk.snd))
    else
      -- the key the job gave up when it failed is reclaimed, unless another job took it since
      match (q.uniques.lookup ⟨queue, j.unique⟩).filter
          fun c => decide (clk.fst < c.expires ∧ c.holder ≠ id) with
      | some claim => (.error (.duplicateDispatch queue j.unique claim.holder), q)
      | none =>
        (.ok, { q with
          seq := q.seq + 1
          uniques := q.uniques.insert ⟨queue, j.unique⟩ ⟨id, clk.fst + j.uniqueTTL⟩ }.setJob
            (q.retryJob j clk.snd))

def forgetFailed (q : MemoryQueue) (queue id : String) : Answer × MemoryQueue :=
  match q.lookupFailed queue id with
  | .error e => (.error e, q)
  | .ok _ => (.ok, q.dropJob ⟨queue, id⟩)

/-- The jobs `PurgeFailed` deletes. -/
def purges (queue : String) (before : ℤ) (j : MemoryJob) : Bool :=
  decide (j.queue = queue) &&
    match j.failure with
    | none => false
    | some f => decide (before = 0 ∨ f.at_ < before)

def purgeFailed (q : MemoryQueue) (queue : String) (before : ℤ) : Answer × MemoryQueue :=
  if !validName queue then (.error (.invalidQueue queue), q)
  else if q.closed then (.error .closed, q)
  else (.purged (q.jobList.countP (purges queue before)), q.dropJobs (purges queue before))

/-! ## Stats -/

/-- One iteration of the loop of `Stats`. -/
def countJob (now : ℤ) (st : QueueStats) (j : MemoryJob) : QueueStats :=
  if j.failure.isSome then { st with failed := st.failed + 1 }
  else if j.reserved && now < j.leaseDeadline then { st with reserved := st.reserved + 1 }
  else if !j.reserved && now < j.availableAt then { st with scheduled := st.scheduled + 1 }
  else
    { st with
      ready := st.ready + 1
      oldestReady :=
        if st.oldestReady = 0 ∨ j.readyAt < st.oldestReady then j.readyAt else st.oldestReady }

def stats (q : MemoryQueue) (clk : Clock) (queue : String) : Answer × MemoryQueue :=
  if !validName queue then (.error (.invalidQueue queue), q)
  else if q.closed then (.error .closed, q)
  else
    (.stats ((q.jobList.filter fun j => j.queue = queue).foldl (countJob clk.fst) ⟨0, 0, 0, 0, 0⟩), q)

/-! ## Once -/

def beginOnce (q : MemoryQueue) (clk : Clock) (key token : String) (lock : ℤ) :
    Answer × MemoryQueue :=
  let q := q.sweepClaims clk.fst
  match (q.once.lookup key).filter fun c => decide (clk.fst < c.expires) with
  | some claim => (.once (if claim.holder = onceDoneMarker then .done else .busy), q)
  | none => (.once .acquired, { q with once := q.once.insert key ⟨token, clk.fst + lock⟩ })

def finishOnce (q : MemoryQueue) (clk : Clock) (key token : String) (keep : ℤ) :
    Answer × MemoryQueue :=
  match (q.once.lookup key).filter
      fun c => decide (c.holder = token ∧ clk.fst < c.expires) with
  | some _ => (.ok, { q with once := q.once.insert key ⟨onceDoneMarker, clk.snd + keep⟩ })
  | none => (.error (.onceLost key), q)

def abandonOnce (q : MemoryQueue) (key token : String) : Answer × MemoryQueue :=
  match (q.once.lookup key).filter fun c => decide (c.holder = token) with
  | some _ => (.ok, { q with once := q.once.erase key })
  | none => (.ok, q)

/-- `Close`: queued jobs are dropped. -/
def close (q : MemoryQueue) : Answer × MemoryQueue :=
  (.ok, { q with closed := true, jobs := ∅, keyed := by simp })

/-! ## The queue as a machine -/

/-- An operation at the clock readings `clk`. -/
def step (q : MemoryQueue) (op : Op) (clk : Clock) : Answer × MemoryQueue :=
  match op with
  | .push queue env at_ => q.push clk queue env at_ none
  | .pushUnique queue env at_ unique => q.pushUnique clk queue env at_ unique
  | .reserve queues lease receipt => q.reserve clk queues lease receipt
  | .ack d => q.ack d
  | .release d at_ => q.release clk d at_ false
  | .postpone d at_ => q.release clk d at_ true
  | .extend d lease => q.extend clk d lease
  | .bury d f => q.bury clk d f
  | .failed queue limit => q.failed queue limit
  | .failedJob queue id => q.failedJob queue id
  | .retryFailed queue id => q.retryFailed clk queue id
  | .forgetFailed queue id => q.forgetFailed queue id
  | .purgeFailed queue before => q.purgeFailed queue before
  | .stats queue => q.stats clk queue
  | .beginOnce key token lock => q.beginOnce clk key token lock
  | .finishOnce key token keep => q.finishOnce clk key token keep
  | .abandonOnce key token => q.abandonOnce key token
  | .close => q.close

end MemoryQueue

end Gombit.Jobs
