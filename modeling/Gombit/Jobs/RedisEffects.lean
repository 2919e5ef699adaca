import Gombit.Foundations.Program
import Gombit.Jobs.RedisScripts

/-!
# What the Redis queue's scripts do

Each script in closed form: what it answers and the data it leaves, as a function of the data it
finds. The proofs run the scripts symbolically; later modules use the closed forms only.

* `queued`, `leasedOut`, `claimed`, `dropFailed`: the changes the scripts are made of.
* `pick_spec`, `pick_eq_none`: the member a reservation takes is the first one due.
-/

namespace Gombit.Jobs

open Redis

variable {m' r m : String} {key' : SetKey}

namespace RedisKeys

/-! ## What the commands change -/

section Commands

variable (q : RedisKeys) (id m : String) (key : SetKey) (score : ℤ) (h : JobHash)

@[simp] theorem setJob_set : (q.setJob id h).set = q.set := rfl
@[simp] theorem setJob_seq : (q.setJob id h).seq = q.seq := rfl
@[simp] theorem setJob_job_self : (q.setJob id h).job id = h := Function.update_self ..
@[simp] theorem setJob_setJob (h' : JobHash) : (q.setJob id h).setJob id h' = q.setJob id h' := by
  simp [setJob]
@[simp] theorem setJob_incr : (q.setJob id h).incr = q.incr.setJob id h := rfl
@[simp] theorem setJob_zrem : (q.setJob id h).zrem key m = (q.zrem key m).setJob id h := rfl
@[simp] theorem incr_seq : q.incr.seq = q.seq + 1 := rfl
@[simp] theorem incr_job : q.incr.job = q.job := rfl
@[simp] theorem zadd_job : (q.zadd key score m).job = q.job := rfl
@[simp] theorem zrem_unique : (q.zrem key m).unique = q.unique := rfl
@[simp] theorem zadd_seq : (q.zadd key score m).seq = q.seq := rfl
@[simp] theorem zrem_job : (q.zrem key m).job = q.job := rfl
@[simp] theorem zrem_seq : (q.zrem key m).seq = q.seq := rfl

theorem mem_zadd : m' ∈ (q.zadd key score m).set key' ↔ key' = key ∧ m' = m ∨ m' ∈ q.set key' := by
  by_cases hk : key' = key
  · subst hk
    simp [zadd, AList.mem_insert]
  · simp [zadd, hk]

theorem mem_zrem : m' ∈ (q.zrem key m).set key' ↔ ¬(key' = key ∧ m' = m) ∧ m' ∈ q.set key' := by
  by_cases hk : key' = key
  · subst hk
    simp [zrem, AList.mem_erase]
  · simp [zrem, hk]

@[simp] theorem lookup_zadd_self :
    ((q.zadd key score m).set key).lookup m = some (onAbs toDouble score) := by
  simp [zadd]

theorem lookup_zadd_ne (hne : ¬(key' = key ∧ m' = m)) :
    ((q.zadd key score m).set key').lookup m' = (q.set key').lookup m' := by
  by_cases hk : key' = key
  · subst hk
    have hm : m' ≠ m := fun hm => hne ⟨rfl, hm⟩
    simp [zadd, AList.lookup_insert_ne hm]
  · simp [zadd, hk]

theorem lookup_zrem_ne (hne : ¬(key' = key ∧ m' = m)) :
    ((q.zrem key m).set key').lookup m' = (q.set key').lookup m' := by
  by_cases hk : key' = key
  · subst hk
    have hm : m' ≠ m := fun hm => hne ⟨rfl, hm⟩
    simp [zrem, AList.lookup_erase_ne hm]
  · simp [zrem, hk]

end Commands

/-- The end of the scripts that queue a job: a new member, recorded in the hash `h` and added to
`pending`. -/
def queued (q : RedisKeys) (id : String) (h : JobHash) (at_ : ℤ) : RedisKeys :=
  (q.incr.setJob id { h with member := some (member (q.seq + 1) id) }).zadd .pending at_
    (member (q.seq + 1) id)

/-! ## What the scripts do

Each script in closed form: what it answers and the data it leaves. -/

/-- The data after `releaseUniqueLua`. -/
def releaseUnique (q : RedisKeys) (server : ℤ) (job id : String) : RedisKeys :=
  match (q.job job).unique with
  | some key => if getKey q.unique server key = some id then q.delUnique key else q
  | none => q

section Scripts

variable (q : RedisKeys) (id : String) (server : ℤ)

@[simp] theorem releaseUnique_set (job : String) : (q.releaseUnique server job id).set = q.set := by
  unfold releaseUnique
  split
  · split <;> rfl
  · rfl

@[simp] theorem releaseUnique_job (job : String) : (q.releaseUnique server job id).job = q.job := by
  unfold releaseUnique
  split
  · split <;> rfl
  · rfl

@[simp] theorem releaseUnique_seq (job : String) : (q.releaseUnique server job id).seq = q.seq := by
  unfold releaseUnique
  split
  · split <;> rfl
  · rfl

@[simp] theorem run_releaseUniqueLua (job : String) :
    (releaseUniqueLua server job id).run q = .ok () (q.releaseUnique server job id) := by
  unfold releaseUniqueLua releaseUnique
  cases hu : (q.job job).unique with
  | none => simp [hu]
  | some key => by_cases hk : getKey q.unique server key = some id <;> simp [hu, hk]

theorem run_pushScript (env : String) (at_ : ℤ) :
    (pushScript env at_ id).run q =
      if q.job id = .absent then
        .ok 1 (q.queued id { JobHash.absent with
          env := some env, attempts := some 0, receipt := some "" } at_)
      else .ok 0 q := by
  by_cases h : q.job id = .absent
  · simp [pushScript, newMember, h, queued]
  · simp [pushScript, h]

/-- The data with a uniqueness key set. -/
def claimed (q : RedisKeys) (server : ℤ) (key id : String) (ttl : ℤ) : RedisKeys :=
  { q with unique := q.unique.insert key ⟨id, server + ttl⟩ }

@[simp] theorem claimed_job (key : String) (ttl : ℤ) : (q.claimed server key id ttl).job = q.job :=
  rfl
theorem run_setUnique' {key : String} {ttl : ℤ} (h : 0 < ttl) :
    (setUnique server key id ttl).run q = .ok () (q.claimed server key id ttl) :=
  run_setUnique _ _ _ _ h

theorem run_pushUniqueScript (env : String) (at_ : ℤ) (key : String) {ttl : ℤ} (untilDone : Bool)
    (httl : 0 < ttl) :
    (pushUniqueScript server env at_ id key ttl untilDone).run q =
      match getKey q.unique server key with
      | some holder => .ok (.held holder) q
      | none =>
        if q.job id = .absent then
          .ok .pushed ((q.claimed server key id ttl).queued id { JobHash.absent with
            env := some env, attempts := some 0, receipt := some ""
            unique := if untilDone then some key else none
            uniqueTTL := if untilDone then some ttl else none } at_)
        else .ok .duplicate q := by
  unfold pushUniqueScript
  cases hk : getKey q.unique server key with
  | some holder => simp [hk]
  | none =>
    by_cases h : q.job id = .absent
    · cases untilDone <;>
        simp [hk, h, run_setUnique' _ _ _ httl, newMember, queued, JobHash.absent]
    · simp [hk, h]

/-- A claim whose time to live is not positive is refused before anything is written. -/
theorem run_setUnique_refused {key : String} {ttl : ℤ} (h : ttl ≤ 0) :
    (setUnique server key id ttl).run q = .error .server q := by
  simp [setUnique, setPX, h]

/-- The data after the job with the member `m` of the set `source` was leased. -/
def leasedOut (q : RedisKeys) (deadline : ℤ) (receipt : String) (source : SetKey) (m : String) :
    RedisKeys :=
  ((q.zrem source m).setJob (memberID m) { q.job (memberID m) with
    attempts := some ((q.job (memberID m)).attempts.getD 0 + 1)
    receipt := some receipt }).zadd .reserved deadline m

/-- What the reservation answers. -/
def leaseReply (q : RedisKeys) (source : SetKey) (since : ℤ) (m : String) : LeaseReply where
  id := memberID m
  env := (q.job (memberID m)).env
  attempts := (q.job (memberID m)).attempts.getD 0 + 1
  since := since
  leaseExpired := source = .reserved

theorem run_reserveLoop (now deadline : ℤ) (receipt : String) (fuel : ℕ) :
    (reserveLoop now deadline receipt (fuel + 1)).run q =
      match pick (onAbs toDouble now) q with
      | none => .ok none q
      | some (source, since, m) =>
        if q.job (memberID m) = .absent then
          (reserveLoop now deadline receipt fuel).run (q.zrem source m)
        else
          .ok (some (q.leaseReply source since m)) (q.leasedOut deadline receipt source m) := by
  rw [reserveLoop]
  cases hp : pick (onAbs toDouble now) q with
  | none => simp [hp]
  | some x =>
    obtain ⟨source, since, m⟩ := x
    by_cases h : q.job (memberID m) = .absent
    · simp [hp, h]
    · simp [hp, h, lease, leasedOut, leaseReply]

/-- A receipt that is not the job's. -/
theorem run_of_receipt_ne (h : (q.job id).receipt ≠ some r) (at_ : ℤ) (id' : String)
    (uncount : Bool) (failure : String) :
    (ackScript server id r).run q = .ok 0 q ∧
      (releaseScript id r at_ id' uncount).run q = .ok 0 q ∧
      (extendScript id r at_).run q = .ok 0 q ∧
      (buryScript server id r id' at_ failure).run q = .ok 0 q := by
  simp [ackScript, releaseScript, extendScript, buryScript, h]

theorem run_ackScript (hr : (q.job id).receipt = some r) (hm : (q.job id).member = some m) :
    (ackScript server id r).run q =
      .ok 1 ((((q.releaseUnique server id (memberID m)).zrem .reserved m).zrem .pending m).setJob id
        .absent) := by
  simp [ackScript, hr, hm]

theorem run_releaseScript (at_ : ℤ) (uncount : Bool) (hr : (q.job id).receipt = some r)
    (hm : (q.job id).member = some m) :
    (releaseScript id r at_ id uncount).run q =
      .ok 1 ((q.zrem .reserved m).queued id { q.job id with
        attempts := if uncount && 0 < (q.job id).attempts.getD 0 then
          some ((q.job id).attempts.getD 0 - 1) else (q.job id).attempts
        receipt := some "" } at_) := by
  cases uncount with
  | false => simp [releaseScript, hr, hm, newMember, queued]
  | true =>
    by_cases h : 0 < (q.job id).attempts.getD 0 <;>
      simp [releaseScript, hr, hm, h, newMember, queued]

theorem run_extendScript (deadline : ℤ) (hr : (q.job id).receipt = some r)
    (hm : (q.job id).member = some m) :
    (extendScript id r deadline).run q = .ok 1 (q.zadd .reserved deadline m) := by
  simp [extendScript, hr, hm]

theorem run_buryScript (failedAt : ℤ) (failure : String) (hr : (q.job id).receipt = some r)
    (hm : (q.job id).member = some m) :
    (buryScript server id r id failedAt failure).run q =
      .ok 1 ((((q.releaseUnique server id id).zrem .reserved m).setJob id { q.job id with
        receipt := some "", failure := some failure }).zadd .failed failedAt id) := by
  simp [buryScript, hr, hm]

/-- The hash of a failed job as it is queued again, but for its member. -/
def JobHash.requeued (h : JobHash) : JobHash :=
  { h with attempts := some 0, receipt := some "", failure := none }

theorem run_requeue (now : ℤ) :
    (requeue id now).run q =
      .ok .retried ((q.zrem .failed id).queued id (JobHash.requeued (q.job id)) now) := by
  simp [requeue, newMember, queued, JobHash.requeued]

theorem run_retryFailedScript (now ttl : ℤ) {x : ℤ} (hs : (q.set .failed).lookup id = some x)
    (henv : (q.job id).env.isSome) (httl : (q.job id).unique.isSome →
      (q.job id).uniqueTTL = some ttl ∧ 0 < ttl) :
    (retryFailedScript server id now).run q =
      match (q.job id).unique with
      | none => (requeue id now).run q
      | some key =>
        match (getKey q.unique server key).filter fun holder => decide (holder ≠ id) with
        | some holder => .ok (.held holder) q
        | none => (requeue id now).run (q.claimed server key id ttl) := by
  obtain ⟨env, he⟩ := Option.isSome_iff_exists.1 henv
  unfold retryFailedScript
  cases hu : (q.job id).unique with
  | none => simp [hs, he, hu]
  | some key =>
    obtain ⟨ht, hpos⟩ := httl (by simp [hu])
    cases hk : (getKey q.unique server key).filter fun holder => decide (holder ≠ id) <;>
      simp only [ne_eq, decide_not] at hk <;>
      simp [hs, he, hu, hk, ht, run_setUnique' _ _ _ hpos]

theorem run_forgetFailedScript :
    (forgetFailedScript id).run q =
      if ((q.set .failed).lookup id).isSome then .ok 1 ((q.zrem .failed id).setJob id .absent)
      else .ok 0 q := by
  cases h : (q.set .failed).lookup id with
  | none | some => simp [forgetFailedScript, h]

/-- The data after the jobs `ids` were deleted from `failed`. -/
def dropFailed (q : RedisKeys) (ids : List String) : RedisKeys :=
  ids.foldl (fun q id => (q.zrem .failed id).setJob id .absent) q

theorem run_purgeFailedScript (before : Option ℤ) (batch : ℕ) :
    (purgeFailedScript before batch).run q =
      .ok (purgeable before batch (q.set .failed)).length
        (q.dropFailed (purgeable before batch (q.set .failed))) := by
  have hloop : ∀ (ids : List String) (q : RedisKeys),
      (forM ids fun id => do Redis.zrem .failed id; delJob id : Script RedisKeys PUnit).run q =
        .ok () (q.dropFailed ids) := by
    intro ids
    induction ids with
    | nil => intro q; rfl
    | cons id ids ih =>
      intro q
      simp only [List.forM_cons, EStateM.run_bind, run_zrem, run_delJob]
      exact ih _
  simp [purgeFailedScript, hloop]

/-- A row of the failed set, as `failedScanScript` returns it. -/
def failedRow (row : ℤ × String) : FailedRow where
  id := row.2
  env := (q.job row.2).env.getD ""
  attempts := (q.job row.2).attempts.getD 0
  failure := (q.job row.2).failure.getD ""

/-- A row that has its job is put on the page. -/
theorem run_scanRows_cons {row : ℤ × String} (henv : (q.job row.2).env.isSome)
    (hfailure : (q.job row.2).failure.isSome) (want : ℕ) (rows : List (ℤ × String))
    (page : FailedPage) :
    (scanRows want (row :: rows) page).run q =
      if (page.rows ++ [q.failedRow row]).length = want then
        .ok ⟨page.done && rows.isEmpty, some row, page.rows ++ [q.failedRow row]⟩ q
      else (scanRows want rows ⟨page.done, some row, page.rows ++ [q.failedRow row]⟩).run q := by
  obtain ⟨env, henv⟩ := Option.isSome_iff_exists.1 henv
  obtain ⟨failure, hfailure⟩ := Option.isSome_iff_exists.1 hfailure
  simp only [scanRows, EStateM.run_bind, run_hget, henv, hfailure, failedRow, Option.getD_some]
  rw [run_ite]
  rfl

end Scripts

theorem job_dropFailed (q : RedisKeys) (ids : List String) (id : String) :
    (q.dropFailed ids).job id = if id ∈ ids then .absent else q.job id := by
  induction ids generalizing q with
  | nil => rfl
  | cons id' ids ih =>
    change ((((q.zrem .failed id').setJob id' .absent)).dropFailed ids).job id = _
    rw [ih]
    by_cases hid : id = id'
    · simp [hid]
    · simp [hid, setJob, zrem]

theorem mem_dropFailed {q : RedisKeys} {ids : List String} {key : SetKey} :
    m ∈ (q.dropFailed ids).set key ↔ m ∈ q.set key ∧ ¬(key = .failed ∧ m ∈ ids) := by
  induction ids generalizing q with
  | nil => simp [dropFailed]
  | cons id ids ih =>
    change m ∈ ((((q.zrem .failed id).setJob id .absent)).dropFailed ids).set key ↔ _
    rw [ih, setJob_set, mem_zrem, List.mem_cons]
    tauto

theorem seq_dropFailed (q : RedisKeys) (ids : List String) : (q.dropFailed ids).seq = q.seq := by
  induction ids generalizing q with
  | nil => rfl
  | cons id ids ih => exact ih _

theorem mem_of_mem_purgeable {before : Option ℤ} {batch : ℕ} {failed : SortedSet String}
    {id : String} (h : id ∈ purgeable before batch failed) : id ∈ failed := by
  obtain ⟨⟨x, id'⟩, hrow, rfl⟩ := List.mem_map.1 h
  obtain ⟨a, ha, hax⟩ := List.mem_map.1 (List.mem_filter.1 (List.mem_of_mem_take hrow)).1
  have hlookup := SortedSet.mem_sorted.1 ha
  rw [hax] at hlookup
  exact AList.lookup_isSome.1 (by simp [hlookup])

/-! ### The member a reservation takes -/

/-- Nothing is due. -/
theorem pick_eq_none {q : RedisKeys} {now : ℤ} :
    pick now q = none ↔
      ∀ key ≠ SetKey.failed, ∀ m x, (q.set key).lookup m = some x → now < x := by
  have hsets : (∀ key ≠ SetKey.failed, ∀ m x, (q.set key).lookup m = some x → now < x) ↔
      (q.set .pending).first now = none ∧ (q.set .reserved).first now = none := by
    rw [SortedSet.first_eq_none, SortedSet.first_eq_none]
    refine ⟨fun h => ⟨h .pending (by simp), h .reserved (by simp)⟩, ?_⟩
    rintro ⟨hp, hr⟩ (_ | _ | _) hne
    exacts [hp, hr, absurd rfl hne]
  rw [hsets]
  unfold pick
  cases (q.set .pending).first now <;> cases (q.set .reserved).first now <;> simp
  split <;> simp

/-- The member taken is due, and the first of both sets. -/
theorem pick_spec {q : RedisKeys} {now since : ℤ} {source : SetKey}
    (h : pick now q = some (source, since, m)) :
    source ≠ .failed ∧ (q.set source).lookup m = some since ∧ since ≤ now ∧
      ∀ key ≠ SetKey.failed, ∀ m' x, (q.set key).lookup m' = some x →
        toLex (since, m) ≤ toLex (x, m') := by
  have hall : ∀ {a : ℤ ×ₗ String},
      (∀ b, (q.set .pending).lookup (ofLex b).2 = some (ofLex b).1 → a ≤ b) →
      (∀ b, (q.set .reserved).lookup (ofLex b).2 = some (ofLex b).1 → a ≤ b) →
      ∀ key ≠ SetKey.failed, ∀ m' x, (q.set key).lookup m' = some x → a ≤ toLex (x, m') := by
    rintro a hp hr (_ | _ | _) hne m' x hx
    exacts [hp (toLex (x, m')) hx, hr (toLex (x, m')) hx, absurd rfl hne]
  unfold pick at h
  cases hp : (q.set .pending).first now with
  | none =>
    cases hr : (q.set .reserved).first now with
    | none => simp [hp, hr] at h
    | some r =>
      simp only [hp, hr, Option.some.injEq, Prod.mk.injEq] at h
      obtain ⟨rfl, h⟩ := h
      obtain ⟨hmem, hdue, hmin⟩ := SortedSet.first_spec hr
      rw [h] at hmem hdue
      refine ⟨by simp, hmem, hdue, hall (fun b hb => ?_) fun b hb => ?_⟩
      · exact SortedSet.le_of_first_eq_none hp hdue hb
      · rw [← h]; exact hmin b hb
  | some p =>
    obtain ⟨hpmem, hpdue, hpmin⟩ := SortedSet.first_spec hp
    cases hr : (q.set .reserved).first now with
    | none =>
      simp only [hp, hr, Option.some.injEq, Prod.mk.injEq] at h
      obtain ⟨rfl, h⟩ := h
      rw [h] at hpmem hpdue
      refine ⟨by simp, hpmem, hpdue, hall (fun b hb => ?_) fun b hb => ?_⟩
      · rw [← h]; exact hpmin b hb
      · exact SortedSet.le_of_first_eq_none hr hpdue hb
    | some r =>
      obtain ⟨hrmem, hrdue, hrmin⟩ := SortedSet.first_spec hr
      simp only [hp, hr, ← Prod.Lex.lt_iff] at h
      by_cases hlt : r < p
      · simp only [hlt, if_true, Option.some.injEq, Prod.mk.injEq] at h
        obtain ⟨rfl, h⟩ := h
        rw [h] at hrmem hrdue
        refine ⟨by simp, hrmem, hrdue, hall (fun b hb => ?_) fun b hb => ?_⟩
        · rw [← h]; exact hlt.le.trans (hpmin b hb)
        · rw [← h]; exact hrmin b hb
      · simp only [hlt, if_false, Option.some.injEq, Prod.mk.injEq] at h
        obtain ⟨rfl, h⟩ := h
        rw [h] at hpmem hpdue
        refine ⟨by simp, hpmem, hpdue, hall (fun b hb => ?_) fun b hb => ?_⟩
        · rw [← h]; exact hpmin b hb
        · rw [← h]; exact (not_lt.1 hlt).trans (hrmin b hb)

end RedisKeys

/-! ## Once -/

namespace Redis

variable (keys : Table String RedisString) (server : ℤ) (key token : String)

theorem run_onceBeginScript (lock : ℤ) :
    (onceBeginScript server key token lock).run keys =
      match getKey keys server key with
      | some v => .ok (if v = "done" then .done else .busy) keys
      | none =>
        if lock ≤ 0 then .error .server keys
        else .ok .acquired (keys.insert key ⟨token, server + lock⟩) := by
  unfold onceBeginScript
  cases hk : getKey keys server key with
  | some v => simp [hk]
  | none => by_cases hlock : lock ≤ 0 <;> simp [hk, setPX, hlock]

theorem run_onceFinishScript (keep : ℤ) :
    (onceFinishScript server key token keep).run keys =
      if getKey keys server key ≠ some token then .ok 0 keys
      else if keep ≤ 0 then .error .server keys
      else .ok 1 (keys.insert key ⟨"done", server + keep⟩) := by
  unfold onceFinishScript
  by_cases hk : getKey keys server key = some token
  · by_cases hkeep : keep ≤ 0 <;> simp [hk, setPX, hkeep]
  · simp [hk]

theorem run_onceAbandonScript :
    (onceAbandonScript server key token).run keys =
      .ok 1 (if getKey keys server key = some token then keys.erase key else keys) := by
  unfold onceAbandonScript
  by_cases hk : getKey keys server key = some token <;> simp [hk]

end Redis

end Gombit.Jobs
