import Gombit.Foundations.Decimal
import Gombit.Foundations.SortedSet
import Gombit.Jobs.Queue
import Mathlib.Data.String.Basic
import Mathlib.Logic.Function.Basic

/-!
# The Redis queue's scripts

The Lua scripts of `RedisQueue` (`jobs/redis.go`), each one atomic step on the data of one queue:
three sorted sets, a counter, a hash per job and a string per uniqueness key, all under the
queue's hash tag. `Script` is the monad they run in: a command reads or writes the data, and an
error stops the script where it is and keeps what it wrote.

What Redis stores is modelled as far as the scripts can see it.

* A hash is a `JobHash`, which exists when some field is set.
* A key set with `PX` is gone once its time to live has passed on the server's clock, which is an
  argument of the scripts that read such keys.
* A score is a double, and so is a number in Lua: `INCR`'s reply and the scores pass through
  `toDouble`. A number that Lua turns into text by concatenation keeps 14 digits
  (`toFourteenDigits`); one passed as an argument of a command keeps all.
-/

namespace Gombit.Jobs

/-! ## Data -/

/-- The fields of `…:job:<id>`. The field `unique` holds the key of the job's uniqueness claim; the
prefix common to all of them is left out. -/
structure JobHash where
  env : Option String
  attempts : Option ℕ
  receipt : Option String
  member : Option String
  unique : Option String
  uniqueTTL : Option ℤ
  failure : Option String
  deriving DecidableEq

/-- A hash without fields: a key that does not exist. -/
def JobHash.absent : JobHash := ⟨none, none, none, none, none, none, none⟩

/-- A string set with `PX`, gone from `expires` on. -/
structure RedisString where
  value : String
  expires : ℤ
  deriving DecidableEq

/-- The sorted sets of a queue. -/
inductive SetKey
  | pending
  | reserved
  | failed
  deriving DecidableEq

/-- What Redis stores for one queue. -/
@[ext]
structure RedisKeys where
  /-- Waiting jobs by when they become available, leased jobs by lease deadline, failed jobs by
  when they failed, in milliseconds. -/
  set : SetKey → SortedSet String
  /-- The counter that orders jobs available in the same millisecond. -/
  seq : ℕ
  /-- The job hashes by id. -/
  job : String → JobHash
  /-- The id of the job holding a uniqueness key. -/
  unique : Table String RedisString

/-- An empty queue. -/
def RedisKeys.empty : RedisKeys where
  set _ := ∅
  seq := 0
  job _ := .absent
  unique := ∅

/-- A member of `pending` and `reserved`: `string.format('%016d', n) .. ':' .. id`. -/
def member (n : ℕ) (id : String) : String :=
  String.ofList (formatWidth 16 (toDouble n) ++ ':' :: id.toList)

/-- `string.sub(member, 18)`. -/
def memberID (member : String) : String := String.ofList (member.toList.drop 17)

/-! ## Commands -/

namespace RedisKeys

/-- The job's hash changed by `HSET`, `HDEL` and `HINCRBY`, or deleted. -/
def setJob (q : RedisKeys) (id : String) (h : JobHash) : RedisKeys :=
  { q with job := Function.update q.job id h }

/-- `INCR` of the counter. -/
def incr (q : RedisKeys) : RedisKeys := { q with seq := q.seq + 1 }

/-- `ZADD`. -/
def zadd (q : RedisKeys) (key : SetKey) (score : ℤ) (m : String) : RedisKeys :=
  { q with set := Function.update q.set key ((q.set key).insert m (onAbs toDouble score)) }

/-- `ZREM`. -/
def zrem (q : RedisKeys) (key : SetKey) (m : String) : RedisKeys :=
  { q with set := Function.update q.set key ((q.set key).erase m) }

/-- `DEL` of a uniqueness key. -/
def delUnique (q : RedisKeys) (key : String) : RedisKeys := { q with unique := q.unique.erase key }

end RedisKeys

/-- A script on the data `σ`. -/
abbrev Script (σ : Type) := EStateM Err σ

namespace Redis

/-- A reply used as an argument: a missing one (Lua's `false`) stops the script. -/
def arg {σ α : Type} : Option α → Script σ α
  | some a => pure a
  | none => throw .server

/-- `GET`. -/
def getKey (keys : Table String RedisString) (server : ℤ) (key : String) : Option String :=
  ((keys.lookup key).filter fun s => decide (server < s.expires)).map RedisString.value

/-- `SET … PX`, refused for a time to live that is not positive. -/
def setPX {σ : Type} (keys : Table String RedisString) (server : ℤ) (key value : String) (ttl : ℤ) :
    Script σ (Table String RedisString) :=
  if ttl ≤ 0 then throw .server else pure (keys.insert key ⟨value, server + ttl⟩)

/-- `EXISTS` of a job's hash. -/
def existsJob (id : String) : Script RedisKeys Bool := do return (← get).job id ≠ .absent

/-- `HGET`, `HMGET` and `HEXISTS`. -/
def hget {α : Type} (id : String) (field : JobHash → α) : Script RedisKeys α := do
  return field ((← get).job id)

/-- `HSET`, `HDEL` and `HINCRBY`, as changes of the hash. -/
def hset (id : String) (change : JobHash → JobHash) : Script RedisKeys Unit :=
  modify fun q => q.setJob id (change (q.job id))

/-- `DEL` of a job's hash. -/
def delJob (id : String) : Script RedisKeys Unit := modify fun q => q.setJob id .absent

/-- `INCR` of the counter, with its reply. -/
def incr : Script RedisKeys ℕ := modifyGet fun q => (q.seq + 1, q.incr)

/-- `ZADD`. -/
def zadd (key : SetKey) (score : ℤ) (m : String) : Script RedisKeys Unit :=
  modify fun q => q.zadd key score m

/-- `ZREM`. -/
def zrem (key : SetKey) (m : String) : Script RedisKeys Unit := modify fun q => q.zrem key m

/-- The sorted set `key`, for the commands that read it. -/
def zset (key : SetKey) : Script RedisKeys (SortedSet String) := do return (← get).set key

/-- `GET` of a uniqueness key. -/
def getUnique (server : ℤ) (key : String) : Script RedisKeys (Option String) := do
  return getKey (← get).unique server key

/-- `SET … PX` of a uniqueness key. -/
def setUnique (server : ℤ) (key value : String) (ttl : ℤ) : Script RedisKeys Unit := do
  let unique ← setPX (← get).unique server key value ttl
  modify fun q => { q with unique := unique }

/-- `DEL` of a uniqueness key. -/
def delUnique (key : String) : Script RedisKeys Unit := modify fun q => q.delUnique key

/-! ### Running a script

The result and the data a command leaves, for symbolic execution of the scripts. -/

section Run

variable {σ α : Type}

@[simp] theorem run_arg_some (a : α) (s : σ) : (arg (some a) : Script σ α).run s = .ok a s := rfl

@[simp] theorem run_throw (e : Err) (s : σ) : (throw e : Script σ α).run s = .error e s := rfl

@[simp] theorem run_map {β : Type} (f : α → β) (x : Script σ α) (s : σ) :
    (f <$> x).run s = match x.run s with
      | .ok a s => .ok (f a) s
      | .error e s => .error e s := by
  change EStateM.map f x s = _
  unfold EStateM.map EStateM.run
  cases x s <;> rfl

@[simp] theorem run_ite (c : Prop) [Decidable c] (x y : Script σ α) (s : σ) :
    (if c then x else y).run s = if c then x.run s else y.run s := by
  split <;> rfl

@[simp] theorem run_setPX (keys : Table String RedisString) (server : ℤ) (key value : String)
    {ttl : ℤ} (h : 0 < ttl) (s : σ) :
    (setPX keys server key value ttl : Script σ _).run s =
      .ok (keys.insert key ⟨value, server + ttl⟩) s := by
  simp [setPX, Int.not_le.2 h]

variable (q : RedisKeys) (id key m : String) (k : SetKey) (server score : ℤ)

@[simp] theorem run_existsJob :
    (existsJob id).run q = .ok (decide (q.job id ≠ .absent)) q := rfl

@[simp] theorem run_hget (field : JobHash → α) :
    (hget id field).run q = .ok (field (q.job id)) q := rfl

@[simp] theorem run_hset (change : JobHash → JobHash) :
    (hset id change).run q = .ok () (q.setJob id (change (q.job id))) := rfl

@[simp] theorem run_delJob : (delJob id).run q = .ok () (q.setJob id .absent) := rfl

@[simp] theorem run_incr : incr.run q = .ok (q.seq + 1) q.incr := rfl

@[simp] theorem run_zadd : (zadd k score m).run q = .ok () (q.zadd k score m) := rfl

@[simp] theorem run_zrem : (zrem k m).run q = .ok () (q.zrem k m) := rfl

@[simp] theorem run_zset : (zset k).run q = .ok (q.set k) q := rfl

@[simp] theorem run_getUnique :
    (getUnique server key).run q = .ok (getKey q.unique server key) q := rfl

@[simp] theorem run_delUnique : (delUnique key).run q = .ok () (q.delUnique key) := rfl

theorem run_setUnique (value : String) {ttl : ℤ} (h : 0 < ttl) :
    (setUnique server key value ttl).run q =
      .ok () { q with unique := q.unique.insert key ⟨value, server + ttl⟩ } := by
  simp [setUnique, h]

end Run

/-! ## Scripts -/

/-- A new member for the job. -/
def newMember (id : String) : Script RedisKeys String := do
  return member (← incr) id

/-- `pushScript`: 0 when the id is already on this queue. -/
def pushScript (env : String) (at_ : ℤ) (id : String) : Script RedisKeys ℕ := do
  if ← existsJob id then return 0
  else
    let m ← newMember id
    hset id fun h =>
      { h with env := some env, attempts := some 0, receipt := some "", member := some m }
    zadd .pending at_ m
    return 1

/-- What `pushUniqueScript` found. -/
inductive PushReply
  | pushed
  | held (holder : String)
  | duplicate
  deriving DecidableEq

/-- `pushUniqueScript`. -/
def pushUniqueScript (server : ℤ) (env : String) (at_ : ℤ) (id key : String) (ttl : ℤ)
    (untilDone : Bool) : Script RedisKeys PushReply := do
  match ← getUnique server key with
  | some holder => return .held holder
  | none =>
    if ← existsJob id then return .duplicate
    else
      setUnique server key id ttl
      let m ← newMember id
      hset id fun h =>
        { h with env := some env, attempts := some 0, receipt := some "", member := some m }
      if untilDone then
        hset id fun h => { h with unique := some key, uniqueTTL := some ttl }
      zadd .pending at_ m
      return .pushed

/-- `releaseUniqueLua`, for the job hash `job` and the job id `id`. -/
def releaseUniqueLua (server : ℤ) (job id : String) : Script RedisKeys Unit := do
  match ← hget job JobHash.unique with
  | some key => if (← getUnique server key) = some id then delUnique key
  | none => pure ()

/-- What `reserveScript` returns of a job. -/
structure LeaseReply where
  id : String
  env : Option String
  attempts : ℕ
  since : ℤ
  leaseExpired : Bool
  deriving DecidableEq

/-- The member `reserveScript` takes: the first pending one due now or the first lease that has
expired, whichever became available first. -/
def pick (now : ℤ) (q : RedisKeys) : Option (SetKey × ℤ × String) :=
  match (q.set .pending).first now, (q.set .reserved).first now with
  | some p, some r =>
    if (ofLex r).1 < (ofLex p).1 ∨ (ofLex r).1 = (ofLex p).1 ∧ (ofLex r).2 < (ofLex p).2 then
      some (.reserved, ofLex r)
    else some (.pending, ofLex p)
  | some p, none => some (.pending, ofLex p)
  | none, some r => some (.reserved, ofLex r)
  | none, none => none

/-- The job the reservation leases, when its hash exists. -/
def lease (deadline : ℤ) (receipt : String) (source : SetKey) (since : ℤ) (m : String) :
    Script RedisKeys LeaseReply := do
  let id := memberID m
  let attempts := (← hget id JobHash.attempts).getD 0 + 1
  hset id fun h => { h with attempts := some attempts }
  hset id fun h => { h with receipt := some receipt }
  zadd .reserved deadline m
  return ⟨id, ← hget id JobHash.env, attempts, since, source = .reserved⟩

/-- The loop of `reserveScript`. Every iteration removes a member from one of the two sets, so as
many as they have members are enough. -/
def reserveLoop (now deadline : ℤ) (receipt : String) : ℕ → Script RedisKeys (Option LeaseReply)
  | 0 => return none
  | fuel + 1 => do
    match pick (onAbs toDouble now) (← get) with
    | none => return none
    | some (source, since, m) =>
      zrem source m
      if ← existsJob (memberID m) then
        return some (← lease deadline receipt source since m)
      else reserveLoop now deadline receipt fuel

/-- `reserveScript`. -/
def reserveScript (now deadline : ℤ) (receipt : String) : Script RedisKeys (Option LeaseReply) := do
  let q ← get
  reserveLoop now deadline receipt
    ((q.set .pending).keys.length + (q.set .reserved).keys.length)

/-- `ackScript`: 0 when the receipt is not the job's current lease. -/
def ackScript (server : ℤ) (job receipt : String) : Script RedisKeys ℕ := do
  if (← hget job JobHash.receipt) ≠ some receipt then return 0
  else
    let m ← arg (← hget job JobHash.member)
    let id := memberID m
    releaseUniqueLua server job id
    zrem .reserved m
    zrem .pending m
    delJob job
    return 1

/-- `releaseScript`; with `uncount`, the delivery's attempt is taken back. -/
def releaseScript (job receipt : String) (at_ : ℤ) (id : String) (uncount : Bool) :
    Script RedisKeys ℕ := do
  if (← hget job JobHash.receipt) ≠ some receipt then return 0
  else
    if uncount && 0 < (← hget job JobHash.attempts).getD 0 then
      hset job fun h => { h with attempts := some (h.attempts.getD 0 - 1) }
    zrem .reserved (← arg (← hget job JobHash.member))
    let m ← newMember id
    hset job fun h => { h with receipt := some "", member := some m }
    zadd .pending at_ m
    return 1

/-- `extendScript`. -/
def extendScript (job receipt : String) (deadline : ℤ) : Script RedisKeys ℕ := do
  if (← hget job JobHash.receipt) ≠ some receipt then return 0
  else
    zadd .reserved deadline (← arg (← hget job JobHash.member))
    return 1

/-- `buryScript`. -/
def buryScript (server : ℤ) (job receipt id : String) (failedAt : ℤ) (failure : String) :
    Script RedisKeys ℕ := do
  if (← hget job JobHash.receipt) ≠ some receipt then return 0
  else
    releaseUniqueLua server job id
    zrem .reserved (← arg (← hget job JobHash.member))
    hset job fun h => { h with receipt := some "", failure := some failure }
    zadd .failed failedAt id
    return 1

/-- What `retryFailedScript` found. -/
inductive RetryReply
  | notFailed
  | retried
  | held (holder : String)
  deriving DecidableEq

/-- The end of `retryFailedScript`, once the job's uniqueness key is its own again. -/
def requeue (id : String) (now : ℤ) : Script RedisKeys RetryReply := do
  zrem .failed id
  let m ← newMember id
  hset id fun h => { h with attempts := some 0, receipt := some "", member := some m }
  hset id fun h => { h with failure := none }
  zadd .pending now m
  return .retried

/-- `retryFailedScript`. -/
def retryFailedScript (server : ℤ) (id : String) (now : ℤ) : Script RedisKeys RetryReply := do
  if ((← zset .failed).lookup id).isNone then return .notFailed
  else if (← hget id JobHash.env).isNone then
    zrem .failed id
    return .notFailed
  else
    match ← hget id JobHash.unique with
    | none => requeue id now
    | some key =>
      match (← getUnique server key).filter fun holder => decide (holder ≠ id) with
      | some holder => return .held holder
      | none =>
        setUnique server key id (← arg (← hget id JobHash.uniqueTTL))
        requeue id now

/-- `forgetFailedScript`. -/
def forgetFailedScript (id : String) : Script RedisKeys ℕ := do
  if ((← zset .failed).lookup id).isNone then return 0
  else
    zrem .failed id
    delJob id
    return 1

/-- The failed jobs `purgeFailedScript` deletes: the first `batch` that failed before `before`, or
of all for `+inf`. -/
def purgeable (before : Option ℤ) (batch : ℕ) (failed : SortedSet String) : List String :=
  (((failed.sorted.map ofLex).filter fun row =>
    match before with
    | none => true
    | some before => decide (row.1 < onAbs toDouble before)).take batch).map Prod.snd

/-- `purgeFailedScript`. -/
def purgeFailedScript (before : Option ℤ) (batch : ℕ) : Script RedisKeys ℕ := do
  let ids := purgeable before batch (← zset .failed)
  ids.forM fun id => do
    zrem .failed id
    delJob id
  return ids.length

/-! ### Reading -/

/-- A failed job as `failedScanScript` returns it. -/
structure FailedRow where
  id : String
  env : String
  attempts : ℕ
  failure : String
  deriving DecidableEq

/-- What `failedScanScript` returns: whether the set ran out, the last member it looked at, and
the jobs. -/
structure FailedPage where
  done : Bool
  cursor : Option (ℤ × String)
  rows : List FailedRow
  deriving DecidableEq

/-- The failed set, most recent first. -/
def newestFirst (failed : SortedSet String) : List (ℤ × String) :=
  (failed.sorted.map ofLex).reverse

/-- Where a page starts: just after the cursor when its job is still there at that score, else at
the start of the cursor's failure instant. -/
def pageStart (failed : SortedSet String) : Option (ℤ × String) → ℕ
  | none => 0
  | some (score, id) =>
    if failed.lookup id = some score then (newestFirst failed).idxOf (score, id) + 1
    else (newestFirst failed).countP fun row => score < row.1

/-- The loop of `failedScanScript` over the members it looks at. -/
def scanRows (want : ℕ) : List (ℤ × String) → FailedPage → Script RedisKeys FailedPage
  | [], page => return page
  | (score, id) :: rest, page => do
    match ← hget id JobHash.env, ← hget id JobHash.failure with
    | some env, some failure =>
      let rows := page.rows ++ [⟨id, env, (← hget id JobHash.attempts).getD 0, failure⟩]
      if rows.length = want then
        return { done := page.done && rest.isEmpty, cursor := some (score, id), rows := rows }
      else scanRows want rest { page with cursor := some (score, id), rows := rows }
    | _, _ =>
      zrem .failed id
      scanRows want rest { page with cursor := some (score, id) }

/-- `failedScanScript`, looking at no more than `look` members. -/
def failedScanScript (want look : ℕ) (cursor : Option (ℤ × String)) :
    Script RedisKeys FailedPage := do
  let failed ← zset .failed
  let rows := ((newestFirst failed).drop (pageStart failed cursor)).take look
  scanRows want rows { done := decide (rows.length ≠ look), cursor := cursor, rows := [] }

/-- `ZCOUNT … -inf now`. -/
def dueCount (now : ℤ) (s : SortedSet String) : ℕ :=
  (s.sorted.map ofLex).countP fun row => row.1 ≤ now

/-- The oldest ready time of `statsScript`: the first pending score up to now, or the first expired
lease's when that is earlier; -1 when there is neither. -/
def oldestDue (now : ℤ) (q : RedisKeys) : ℤ :=
  let oldest := match (q.set .pending).first now with
    | some p => (ofLex p).1
    | none => -1
  match (q.set .reserved).first now with
  | some r => if oldest < 0 ∨ (ofLex r).1 < oldest then (ofLex r).1 else oldest
  | none => oldest

/-- `statsScript`: ready, scheduled, reserved and failed jobs, and the oldest ready time. -/
def statsScript (now : ℤ) : Script RedisKeys (ℕ × ℕ × ℤ × ℕ × ℤ) := do
  let now := onAbs toDouble now
  let q ← get
  return (dueCount now (q.set .pending) + dueCount now (q.set .reserved),
    ((q.set .pending).sorted.map ofLex).countP fun row => onAbs toFourteenDigits now < row.1,
    (q.set .reserved).keys.length - dueCount now (q.set .reserved), (q.set .failed).keys.length,
    oldestDue now q)

/-! ### Once -/

/-- `onceBeginScript`. -/
def onceBeginScript (server : ℤ) (key token : String) (lock : ℤ) :
    Script (Table String RedisString) OnceState := do
  match getKey (← get) server key with
  | some v => return if v = "done" then .done else .busy
  | none =>
    set (← setPX (← get) server key token lock)
    return .acquired

/-- `onceFinishScript`: 0 when the token no longer holds the lock. -/
def onceFinishScript (server : ℤ) (key token : String) (keep : ℤ) :
    Script (Table String RedisString) ℕ := do
  if getKey (← get) server key ≠ some token then return 0
  else
    set (← setPX (← get) server key "done" keep)
    return 1

/-- `onceAbandonScript`. -/
def onceAbandonScript (server : ℤ) (key token : String) :
    Script (Table String RedisString) ℕ := do
  if getKey (← get) server key = some token then
    set ((← get).erase key)
  return 1

end Redis

end Gombit.Jobs
