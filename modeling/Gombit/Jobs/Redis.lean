import Gombit.Jobs.Representation

/-!
# The Redis queue

`RedisQueue` (`jobs/redis.go`), operation by operation: each method checks its arguments, runs
one script or a loop of scripts on the data of one queue, and decodes what they return.

Redis keeps time in milliseconds. An instant is passed as its Unix milliseconds (`unixMilli`) and
a duration as its whole milliseconds (`milliseconds`); `now` is both the client's clock and, in
milliseconds, the server's.

The JSON encoding of envelopes and failures is a parameter, `Codec`.

* `step_scripted`: what an operation does to the data of a queue is a run of the scripts, so what
  holds of every run of the scripts holds after every sequence of operations.
-/

namespace Gombit.Jobs

open Redis

/-! ## Time -/

/-- The Unix epoch, in nanoseconds from the zero time. -/
def epoch : ℤ := 62135596800 * 10 ^ 9

/-- `Time.UnixMilli`. -/
def unixMilli (t : ℤ) : ℤ := (t - epoch) / 10 ^ 6

/-- `time.UnixMilli`. -/
def ofUnixMilli (ms : ℤ) : ℤ := ms * 10 ^ 6 + epoch

/-- `Duration.Milliseconds`. -/
def milliseconds (d : ℤ) : ℤ := d.tdiv (10 ^ 6)

/-! ## Encoding -/

/-- `encoding/json` for the two types the driver stores: `Marshal` and `Unmarshal`. An encoded
value is a JSON object, so never the empty text, and a time after the year 9999 has no encoding. -/
structure Codec where
  marshal : Envelope → Option String
  unmarshal : String → Except String Envelope
  marshalFailure : Failure → Option String
  unmarshalFailure : String → Except String Failure
  marshal_ne : ∀ e, marshal e ≠ some ""
  marshalFailure_ne : ∀ f, marshalFailure f ≠ some ""
  marshalFailure_year : ∀ f, marshalFailure f ≠ none → unixMilli f.at_ < 253402300800000

/-- An envelope with nothing but an id. -/
def Envelope.bare (id : String) : Envelope where
  id := id
  name := ""
  version := 0
  payload := ""
  metadata := []
  enqueuedAt := 0
  attempt := 0

namespace Codec

/-- `UnmarshalEnvelope`, with `Envelope.validate`. -/
def unmarshalEnvelope (c : Codec) (data : String) : Except String Envelope :=
  match c.unmarshal data with
  | .error e => .error ("jobs: decode job: envelope: " ++ e)
  | .ok e =>
    if e.name = "" then .error "jobs: decode job: envelope has no job name"
    else if e.id = "" then
      .error ("jobs: decode job \"" ++ e.name ++ "\": envelope has no job ID")
    else .ok e

/-- `decodeFailedJob`. -/
def decodeFailedJob (c : Codec) (queue id : String) (env : String) (attempts : ℕ)
    (failure : String) : Except Err FailedJob :=
  if env = "" ∨ failure = "" then .error (.notFailed id queue)
  else
    match c.unmarshalFailure failure with
    | .error _ => .error (.codec id)
    | .ok f =>
      match c.unmarshalEnvelope env with
      | .error _ => .ok
        { queue := queue
          envelope := { Envelope.bare id with attempt := attempts }
          rawEnvelope := some env
          attempts := attempts
          failure := f }
      | .ok e => .ok
        { queue := queue
          envelope := { e with attempt := attempts }
          rawEnvelope := none
          attempts := attempts
          failure := f }

end Codec

/-! ## The queue -/

structure RedisQueue where
  /-- The data of each queue. -/
  keys : String → RedisKeys
  /-- The `Once` keys. -/
  once : Table String RedisString
  closed : Bool

namespace RedisQueue

/-- A queue over an empty server. -/
def empty : RedisQueue where
  keys _ := .empty
  once := ∅
  closed := false

/-- The data of one queue replaced. -/
def setKeys (q : RedisQueue) (queue : String) (k : RedisKeys) : RedisQueue :=
  { q with keys := Function.update q.keys queue k }

@[simp] theorem setKeys_keys_self (q : RedisQueue) (queue : String) (k : RedisKeys) :
    (q.setKeys queue k).keys queue = k := Function.update_self ..

theorem setKeys_keys_ne (q : RedisQueue) {queue queue' : String} (k : RedisKeys)
    (h : queue' ≠ queue) : (q.setKeys queue k).keys queue' = q.keys queue' :=
  Function.update_of_ne h ..

@[simp] theorem setKeys_keys_eq (q : RedisQueue) (queue : String) :
    q.setKeys queue (q.keys queue) = q := by
  simp [setKeys]

@[simp] theorem setKeys_setKeys (q : RedisQueue) (queue : String) (k k' : RedisKeys) :
    (q.setKeys queue k).setKeys queue k' = q.setKeys queue k' := by
  simp [setKeys]

@[simp] theorem setKeys_closed (q : RedisQueue) (queue : String) (k : RedisKeys) :
    (q.setKeys queue k).closed = q.closed := rfl

/-- Run a script on the data of a queue. -/
def run {α : Type} (q : RedisQueue) (queue : String) (s : Script RedisKeys α) :
    Except Err α × RedisQueue :=
  match s.run (q.keys queue) with
  | .ok a k => (.ok a, q.setKeys queue k)
  | .error e k => (.error e, q.setKeys queue k)

/-- Run a script and answer from what it returns. -/
def ask {α : Type} (q : RedisQueue) (queue : String) (s : Script RedisKeys α) (f : α → Answer) :
    Answer × RedisQueue :=
  match q.run queue s with
  | (.ok a, q) => (f a, q)
  | (.error e, q) => (.error e, q)

theorem run_eq {α : Type} {q : RedisQueue} {queue : String} {s : Script RedisKeys α} {a : α}
    {k : RedisKeys} (h : s.run (q.keys queue) = .ok a k) :
    q.run queue s = (.ok a, q.setKeys queue k) := by
  simp [run, h]

theorem ask_eq {α : Type} {q : RedisQueue} {queue : String} {s : Script RedisKeys α} {a : α}
    {k : RedisKeys} (h : s.run (q.keys queue) = .ok a k) (f : α → Answer) :
    q.ask queue s f = (f a, q.setKeys queue k) := by
  simp [ask, run_eq h]

section Methods

variable (c : Codec) (q : RedisQueue) (now : ℤ)

/-! ### Pushing -/

/-- `Push`. -/
def push (queue : String) (env : Envelope) (at_ : ℤ) : Answer × RedisQueue :=
  if q.closed then (.error .closed, q)
  else if !validName queue then (.error (.invalidQueue queue), q)
  else if env.id = "" then (.error (.noID env.name), q)
  else
    match c.marshal { env with attempt := 0 } with
    | none => (.error (.codec env.id), q)
    | some data =>
      q.ask queue (pushScript data (unixMilli (atLeast at_ now)) env.id) fun added =>
        if added = 0 then .error (.duplicateJob env.id queue) else .ok

/-- What `PushUnique` returns for the script's reply. -/
def pushUniqueAnswer (queue id key : String) : PushReply → Answer
  | .pushed => .ok
  | .held holder => .error (.duplicateDispatch queue key holder)
  | .duplicate => .error (.duplicateJob id queue)

/-- `PushUnique`. -/
def pushUnique (queue : String) (env : Envelope) (at_ : ℤ) (unique : UniqueKey) :
    Answer × RedisQueue :=
  if q.closed then (.error .closed, q)
  else if !validName queue then (.error (.invalidQueue queue), q)
  else if env.id = "" then (.error (.noID env.name), q)
  else
    match unique.validate with
    | some e => (.error e, q)
    | none =>
      match c.marshal { env with attempt := 0 } with
      | none => (.error (.codec env.id), q)
      | some data =>
        q.ask queue (pushUniqueScript (unixMilli now) data (unixMilli (atLeast at_ now)) env.id
          unique.key (milliseconds unique.ttl) unique.untilDone)
          (pushUniqueAnswer queue env.id unique.key)

/-! ### Leasing -/

/-- The delivery of what `reserveScript` returned. -/
def delivery (queue receipt : String) (r : LeaseReply) : Delivery :=
  match c.unmarshalEnvelope (r.env.getD "") with
  | .error e =>
    { queue := queue
      envelope := { Envelope.bare r.id with attempt := r.attempts }
      receipt := receipt
      leaseExpired := r.leaseExpired
      availableAt := ofUnixMilli r.since
      err := some e }
  | .ok env =>
    { queue := queue
      envelope := { env with attempt := r.attempts }
      receipt := receipt
      leaseExpired := r.leaseExpired
      availableAt := ofUnixMilli r.since
      err := none }

/-- The loop of `Reserve` over the queues. -/
def reserveFrom (lease : ℤ) (receipt : String) : List String → RedisQueue → Answer × RedisQueue
  | [], q => (.error .noJob, q)
  | queue :: queues, q =>
    match q.run queue (reserveScript (unixMilli now) (unixMilli (now + lease)) receipt) with
    | (.error e, q) => (.error e, q)
    | (.ok none, q) => reserveFrom lease receipt queues q
    | (.ok (some r), q) => (.delivery (delivery c queue receipt r), q)

/-- `Reserve`. -/
def reserve (queues : List String) (lease : ℤ) (receipt : String) : Answer × RedisQueue :=
  if q.closed then (.error .closed, q)
  else if lease ≤ 0 then (.error (.leaseNotPositive lease), q)
  else
    match queues.find? fun queue => !validName queue with
    | some queue => (.error (.invalidQueue queue), q)
    | none => reserveFrom c now lease receipt queues q

/-- What the settling methods do around their script: a delivery without a receipt, or of a queue
that cannot exist, holds no lease, and neither does one whose script answers 0. -/
def settle (d : Delivery) (s : Script RedisKeys ℕ) : Answer × RedisQueue :=
  if q.closed then (.error .closed, q)
  else if d.receipt = "" || !validName d.queue then (.error (.leaseLost d.envelope.id), q)
  else
    q.ask d.queue s fun n => if n = 0 then .error (.leaseLost d.envelope.id) else .ok

/-- `Ack`. -/
def ack (d : Delivery) : Answer × RedisQueue :=
  q.settle d (ackScript (unixMilli now) d.envelope.id d.receipt)

/-- `release`; with `uncount`, `Postpone`. -/
def release (d : Delivery) (at_ : ℤ) (uncount : Bool) : Answer × RedisQueue :=
  q.settle d
    (releaseScript d.envelope.id d.receipt (unixMilli (atLeast at_ now)) d.envelope.id uncount)

/-- `Extend`. The lease is checked before the delivery, after the queue is found open. -/
def extend (d : Delivery) (lease : ℤ) : Answer × RedisQueue :=
  if q.closed then (.error .closed, q)
  else if lease ≤ 0 then (.error (.leaseNotPositive lease), q)
  else q.settle d (extendScript d.envelope.id d.receipt (unixMilli (now + lease)))

/-- `Bury`. -/
def bury (d : Delivery) (f : Failure) : Answer × RedisQueue :=
  if q.closed then (.error .closed, q)
  else if d.receipt = "" || !validName d.queue then (.error (.leaseLost d.envelope.id), q)
  else
    match c.marshalFailure (f.stamp now) with
    | none => (.error (.codec d.envelope.id), q)
    | some data =>
      q.settle d (buryScript (unixMilli now) d.envelope.id d.receipt d.envelope.id
        (unixMilli (f.stamp now).at_) data)

/-! ### Failed jobs -/

/-- `failedPageSize`. -/
def failedPageSize : ℕ := 500

/-- The jobs of a page, or the first error. -/
def decodePage (queue : String) (rows : List FailedRow) : Except Err (List FailedJob) :=
  rows.mapM fun row => c.decodeFailedJob queue row.id row.env row.attempts row.failure

/-- The jobs read so far and those of the next page that are not among them. -/
def addPage (out page : List FailedJob) : List FailedJob :=
  page.foldl
    (fun out job =>
      if out.any fun seen => decide (seen.envelope.id = job.envelope.id) then out else out ++ [job])
    out

/-- How many jobs `Failed` asks the next page for, of at most `size`. -/
def wanted (size : ℕ) (limit : ℤ) (out : List FailedJob) : ℕ :=
  if 0 < limit ∧ limit - out.length < size then (limit - out.length).toNat else size

/-- What the loop of `Failed` ends with: the jobs, an error that stopped it, and the data. -/
structure Listing where
  jobs : List FailedJob
  err : Option Err
  keys : RedisKeys

/-- The answer of a listing. -/
def Listing.answer (l : Listing) : Answer :=
  match l.err with
  | none => .failedJobs l.jobs
  | some e => .error e

/-- The loop of `Failed`, with pages of `size`; `others i` is what other clients do after the page
`i`. -/
def listFailed (queue : String) (size : ℕ) (limit : ℤ) (others : ℕ → RedisKeys → RedisKeys) :
    ℕ → ℕ → RedisKeys → List FailedJob → Option (ℤ × String) → Option Listing
  | 0, _, _, _, _ => none
  | fuel + 1, i, k, out, cursor =>
    match (failedScanScript (wanted size limit out) size cursor).run k with
    | .error e k' => some ⟨out, some e, k'⟩
    | .ok page k' =>
      match decodePage c queue page.rows with
      | .error e => some ⟨out, some e, k'⟩
      | .ok jobs =>
        let out := addPage out jobs
        if page.done ∨ 0 < limit ∧ limit ≤ out.length then some ⟨out, none, k'⟩
        else listFailed queue size limit others fuel (i + 1) (others i k') out page.cursor

/-- `Failed`, while no other client changes the failed set. Every page but the last passes at least one
member, so one more than there are members is enough. -/
def failed (queue : String) (limit : ℤ) : Answer × RedisQueue :=
  if q.closed then (.error .closed, q)
  else if !validName queue then (.error (.invalidQueue queue), q)
  else
    match listFailed c queue failedPageSize limit (fun _ k => k)
      (((q.keys queue).set .failed).keys.length + 1) 0 (q.keys queue) [] none with
    | none => (.failedJobs [], q)
    | some l => (l.answer, q.setKeys queue l.keys)

/-- `FailedJob`: `ZSCORE`, then `HMGET`. -/
def failedJob (queue id : String) : Answer × RedisQueue :=
  if q.closed then (.error .closed, q)
  else if !validName queue then (.error (.invalidQueue queue), q)
  else if (((q.keys queue).set .failed).lookup id).isNone then (.error (.notFailed id queue), q)
  else
    let h := (q.keys queue).job id
    match c.decodeFailedJob queue id (h.env.getD "") (h.attempts.getD 0) (h.failure.getD "") with
    | .error e => (.error e, q)
    | .ok job => (.failedJob job, q)

/-- What `RetryFailed` returns for the script's reply. -/
def retryFailedAnswer (queue id key : String) : RetryReply → Answer
  | .retried => .ok
  | .held holder => .error (.duplicateDispatch queue key holder)
  | .notFailed => .error (.notFailed id queue)

/-- `RetryFailed`. The uniqueness key of a refused retry is read again from the hash. -/
def retryFailed (queue id : String) : Answer × RedisQueue :=
  if q.closed then (.error .closed, q)
  else if !validName queue then (.error (.invalidQueue queue), q)
  else
    q.ask queue (retryFailedScript (unixMilli now) id (unixMilli now))
      (retryFailedAnswer queue id (((q.keys queue).job id).unique.getD ""))

/-- `ForgetFailed`. -/
def forgetFailed (queue id : String) : Answer × RedisQueue :=
  if q.closed then (.error .closed, q)
  else if !validName queue then (.error (.invalidQueue queue), q)
  else
    q.ask queue (forgetFailedScript id) fun n => if n = 0 then .error (.notFailed id queue) else .ok

/-- `purgeBatch`. -/
def purgeBatch : ℕ := 500

/-- The loop of `PurgeFailed` over the batches. Every batch but the last deletes a job, so one
more than there are is enough. -/
def purgeLoop (queue : String) (before : Option ℤ) : ℕ → RedisQueue → ℕ → Answer × RedisQueue
  | 0, q, total => (.purged total, q)
  | fuel + 1, q, total =>
    match q.run queue (purgeFailedScript before purgeBatch) with
    | (.error e, q) => (.error e, q)
    | (.ok n, q) =>
      if n < purgeBatch then (.purged (total + n), q)
      else purgeLoop queue before fuel q (total + n)

/-- `PurgeFailed`. -/
def purgeFailed (queue : String) (before : ℤ) : Answer × RedisQueue :=
  if q.closed then (.error .closed, q)
  else if !validName queue then (.error (.invalidQueue queue), q)
  else
    purgeLoop queue (if before = 0 then none else some (unixMilli before))
      (((q.keys queue).set .failed).keys.length + 1) q 0

/-! ### Stats -/

/-- `Stats`. -/
def stats (queue : String) : Answer × RedisQueue :=
  if q.closed then (.error .closed, q)
  else if !validName queue then (.error (.invalidQueue queue), q)
  else
    q.ask queue (statsScript (unixMilli now)) fun (ready, scheduled, reserved, failed, oldest) =>
      .stats
        { ready := ready
          scheduled := scheduled
          reserved := reserved.toNat
          failed := failed
          oldestReady := if 0 ≤ oldest then ofUnixMilli oldest else 0 }

/-! ### Once -/

/-- Run a script on the `Once` keys and answer from what it returns. -/
def askOnce {α : Type} (s : Script (Table String RedisString) α) (f : α → Answer) :
    Answer × RedisQueue :=
  if q.closed then (.error .closed, q)
  else
    match s.run q.once with
    | .ok a once => (f a, { q with once := once })
    | .error e once => (.error e, { q with once := once })

/-- `BeginOnce`. -/
def beginOnce (key token : String) (lock : ℤ) : Answer × RedisQueue :=
  q.askOnce (onceBeginScript (unixMilli now) key token (milliseconds lock)) .once

/-- `FinishOnce`. -/
def finishOnce (key token : String) (keep : ℤ) : Answer × RedisQueue :=
  q.askOnce (onceFinishScript (unixMilli now) key token (milliseconds keep)) fun n =>
    if n = 0 then .error (.onceLost key) else .ok

/-- `AbandonOnce`. -/
def abandonOnce (key token : String) : Answer × RedisQueue :=
  q.askOnce (onceAbandonScript (unixMilli now) key token) fun _ => .ok

/-- `Close`. What Redis stores stays. -/
def close : Answer × RedisQueue := (.ok, { q with closed := true })

/-! ## The queue as a machine -/

/-- An operation at the instant `now`. -/
def step (op : Op) : Answer × RedisQueue :=
  match op with
  | .push queue env at_ => q.push c now queue env at_
  | .pushUnique queue env at_ unique => q.pushUnique c now queue env at_ unique
  | .reserve queues lease receipt => q.reserve c now queues lease receipt
  | .ack d => q.ack now d
  | .release d at_ => q.release now d at_ false
  | .postpone d at_ => q.release now d at_ true
  | .extend d lease => q.extend now d lease
  | .bury d f => q.bury c now d f
  | .failed queue limit => q.failed c queue limit
  | .failedJob queue id => q.failedJob c queue id
  | .retryFailed queue id => q.retryFailed now queue id
  | .forgetFailed queue id => q.forgetFailed queue id
  | .purgeFailed queue before => q.purgeFailed queue before
  | .stats queue => q.stats now queue
  | .beginOnce key token lock => q.beginOnce now key token lock
  | .finishOnce key token keep => q.finishOnce now key token keep
  | .abandonOnce key token => q.abandonOnce now key token
  | .close => q.close

end Methods

/-! ## Operations are runs of scripts -/

/-- The data of every queue changed by a run of scripts. -/
def Scripted (q q' : RedisQueue) : Prop :=
  ∀ queue, ∃ calls, Run RedisKeys.Step (q.keys queue) calls (q'.keys queue)

namespace Scripted

variable {q q' q'' : RedisQueue}

theorem of_keys_eq (h : q'.keys = q.keys) : Scripted q q' := fun queue => by
  rw [h]
  exact ⟨[], .nil _⟩

theorem refl (q : RedisQueue) : Scripted q q := of_keys_eq rfl

theorem trans (h : Scripted q q') (h' : Scripted q' q'') : Scripted q q'' := fun queue => by
  obtain ⟨calls, hrun⟩ := h queue
  obtain ⟨calls', hrun'⟩ := h' queue
  exact ⟨_, hrun.append hrun'⟩

theorem of_run {queue : String} {k : RedisKeys} {calls : List RedisKeys.Call}
    (h : Run RedisKeys.Step (q.keys queue) calls k)
    (hk : q'.keys = Function.update q.keys queue k) : Scripted q q' := by
  intro queue'
  rw [hk]
  by_cases hq : queue' = queue
  · subst hq
    rw [Function.update_self]
    exact ⟨_, h⟩
  · rw [Function.update_of_ne hq]
    exact ⟨[], .nil _⟩

/-- A guard that refuses the operation leaves the data alone. -/
theorem guard {p : Prop} [Decidable p] {a : Answer} {r : Answer × RedisQueue} (h : Scripted q r.2) :
    Scripted q (if p then (a, q) else r).2 := by
  split
  · exact refl q
  · exact h

end Scripted

section Runs

variable {α : Type} (q : RedisQueue) (queue : String) (s : Script RedisKeys α)

theorem run_keys :
    (q.run queue s).2.keys = Function.update q.keys queue (after s (q.keys queue)) := by
  unfold run after
  cases s.run (q.keys queue) <;> rfl

theorem ask_snd (f : α → Answer) : (q.ask queue s f).2 = (q.run queue s).2 := by
  unfold ask
  rcases q.run queue s with ⟨_ | _, _⟩ <;> rfl

variable {q queue s}

theorem run_scripted (call : RedisKeys.Call) (hsent : call.Sent)
    (hexec : call.exec (q.keys queue) = after s (q.keys queue)) :
    Scripted q (q.run queue s).2 := by
  exact .of_run (.single ⟨hsent, hexec.symm⟩) (run_keys q queue s)

theorem ask_scripted (call : RedisKeys.Call) {f : α → Answer} (hsent : call.Sent)
    (hexec : call.exec (q.keys queue) = after s (q.keys queue)) :
    Scripted q (q.ask queue s f).2 := by
  rw [ask_snd]
  exact run_scripted call hsent hexec

end Runs

section StepRuns

variable (c : Codec) (q : RedisQueue) (now : ℤ)

theorem push_scripted (queue : String) (env : Envelope) (at_ : ℤ) :
    Scripted q (q.push c now queue env at_).2 := by
  refine .guard (.guard (.guard ?_))
  split
  · exact .refl q
  · exact ask_scripted (.push _ _ _) trivial rfl

theorem pushUnique_scripted (queue : String) (env : Envelope) (at_ : ℤ) (unique : UniqueKey) :
    Scripted q (q.pushUnique c now queue env at_ unique).2 := by
  refine .guard (.guard (.guard ?_))
  split
  · exact .refl q
  split
  · exact .refl q
  · exact ask_scripted (.pushUnique _ _ _ _ _ _ _) trivial rfl

theorem reserveFrom_scripted {lease : ℤ} {receipt : String} (hr : receipt ≠ "")
    (queues : List String) : Scripted q (reserveFrom c now lease receipt queues q).2 := by
  induction queues generalizing q with
  | nil => exact .refl q
  | cons queue queues ih =>
    have hrun : Scripted q (q.run queue
        (reserveScript (unixMilli now) (unixMilli (now + lease)) receipt)).2 :=
      run_scripted (.reserve _ _ receipt) hr rfl
    rw [reserveFrom]
    split
    · rename_i heq
      rwa [heq] at hrun
    · rename_i heq
      rw [heq] at hrun
      exact hrun.trans (ih _)
    · rename_i heq
      rwa [heq] at hrun

theorem settle_scripted {d : Delivery} {s : Script RedisKeys ℕ} (call : RedisKeys.Call)
    (hsent : d.receipt ≠ "" → call.Sent) (hexec : ∀ k, call.exec k = after s k) :
    Scripted q (q.settle d s).2 := by
  unfold settle
  split_ifs with hclosed hd
  · exact .refl q
  · exact .refl q
  · simp only [Bool.or_eq_true, decide_eq_true_eq, not_or] at hd
    exact ask_scripted call (hsent hd.1) (hexec _)

omit q now in
theorem listFailed_scripted {queue : String} {size : ℕ} {limit : ℤ} {fuel i : ℕ} {k : RedisKeys}
    {out : List FailedJob} {cursor : Option (ℤ × String)} {l : Listing}
    (h : listFailed c queue size limit (fun _ k => k) fuel i k out cursor = some l) :
    ∃ calls, Run RedisKeys.Step k calls l.keys := by
  induction fuel generalizing i k out cursor with
  | zero => cases h
  | succ fuel ih =>
    have hscan : RedisKeys.Step k (.failedScan (wanted size limit out) size cursor)
        (after (failedScanScript (wanted size limit out) size cursor) k) := ⟨trivial, rfl⟩
    rw [listFailed] at h
    split at h
    · rename_i heq
      cases h
      exact ⟨_, .single (by rwa [after, heq] at hscan)⟩
    · rename_i heq
      rw [after, heq] at hscan
      split at h
      · cases h
        exact ⟨_, .single hscan⟩
      · dsimp only at h
        split_ifs at h
        · cases h
          exact ⟨_, .single hscan⟩
        · obtain ⟨calls, hrun⟩ := ih h
          exact ⟨_, .cons hscan hrun⟩

theorem purgeLoop_scripted (queue : String) (before : Option ℤ) (fuel total : ℕ) :
    Scripted q (purgeLoop queue before fuel q total).2 := by
  induction fuel generalizing q total with
  | zero => exact .refl q
  | succ fuel ih =>
    have hrun : Scripted q (q.run queue (purgeFailedScript before purgeBatch)).2 :=
      run_scripted (.purgeFailed _ _) trivial rfl
    rw [purgeLoop]
    split
    · rename_i heq
      rwa [heq] at hrun
    · rename_i heq
      rw [heq] at hrun
      split
      · exact hrun
      · exact hrun.trans (ih _ _)

theorem askOnce_keys {α : Type} (s : Script (Table String RedisString) α) (f : α → Answer) :
    (q.askOnce s f).2.keys = q.keys := by
  unfold askOnce
  split
  · rfl
  · split <;> rfl

/-- The receipt a reservation draws is not empty. -/
def Draws : Op → Prop
  | .reserve _ _ receipt => receipt ≠ ""
  | _ => True

/-- **An operation is a run of scripts** on the data of each queue. -/
theorem step_scripted {op : Op} (hop : Draws op) : Scripted q (q.step c now op).2 := by
  cases op with
  | push queue env at_ => exact push_scripted c q now queue env at_
  | pushUnique queue env at_ unique => exact pushUnique_scripted c q now queue env at_ unique
  | reserve queues lease receipt =>
    refine .guard (.guard ?_)
    split
    · exact .refl q
    · exact reserveFrom_scripted c q now hop queues
  | ack d => exact settle_scripted q (.ack _ _ d.receipt) id fun _ => rfl
  | release d at_ => exact settle_scripted q (.release _ d.receipt _ _) id fun _ => rfl
  | postpone d at_ => exact settle_scripted q (.release _ d.receipt _ _) id fun _ => rfl
  | extend d lease =>
    exact .guard (.guard (settle_scripted q (.extend _ d.receipt _) id fun _ => rfl))
  | bury d f =>
    refine .guard (.guard ?_)
    split
    · exact .refl q
    · exact settle_scripted q (.bury _ _ d.receipt _ _) id fun _ => rfl
  | failed queue limit =>
    refine .guard (.guard ?_)
    split
    · exact .refl q
    · obtain ⟨calls, hrun⟩ := listFailed_scripted c ‹_›
      exact .of_run hrun rfl
  | failedJob queue id =>
    refine .guard (.guard (.guard ?_))
    dsimp only
    split <;> exact .refl q
  | retryFailed queue id => exact .guard (.guard (ask_scripted (.retryFailed _ _ _) trivial rfl))
  | forgetFailed queue id => exact .guard (.guard (ask_scripted (.forgetFailed _) trivial rfl))
  | purgeFailed queue before =>
    refine .guard (.guard ?_)
    split <;> exact purgeLoop_scripted q queue _ _ _
  | stats queue => exact .guard (.guard (ask_scripted (.stats (unixMilli now)) trivial rfl))
  | beginOnce | finishOnce | abandonOnce => exact .of_keys_eq (askOnce_keys q _ _)
  | close => exact .of_keys_eq rfl

end StepRuns

end RedisQueue

end Gombit.Jobs
