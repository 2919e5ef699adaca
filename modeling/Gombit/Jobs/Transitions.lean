import Gombit.Foundations.Run
import Gombit.Jobs.Memory

/-!
# What one operation does to one job

Every operation of `MemoryQueue` is a function of the whole queue. The results about a job need
only what the operation does to that job, and that is said here once: `JobStep` lists the
transitions of the job stored under a key `k`, each with the guard the code checks, and
`step_jobStep` shows that every operation makes one of them.

* `leased_eq_ok`, `lookupFailed_eq_ok`, `next_eq_some`, `next_eq_none`: the guards.
* `step_jobStep`: an operation is a `JobStep` of every key.
* `Step`, `History`: operations under a clock that never goes back, with receipts drawn once.
-/

namespace Gombit.Jobs

/-- The key of the job a delivery is of. -/
def Delivery.key (d : Delivery) : MemoryKey := ⟨d.queue, d.envelope.id⟩

variable {j : MemoryJob} {q₀ : MemoryQueue} {ans : Answer}

namespace MemoryQueue

/-! ## Fields after a write -/

section Fields

variable (q : MemoryQueue) (j : MemoryJob) (k k' : MemoryKey) (p : MemoryJob → Bool) (now : ℤ)

@[simp] theorem lookup_setJob_self : (q.setJob j).jobs.lookup j.key = some j := by
  simp [setJob]

theorem lookup_setJob_of_key {k : MemoryKey} (h : j.key = k) :
    (q.setJob j).jobs.lookup k = some j := by
  rw [← h, lookup_setJob_self]

theorem lookup_setJob_ne {k : MemoryKey} (h : k ≠ j.key) :
    (q.setJob j).jobs.lookup k = q.jobs.lookup k := by
  simp [setJob, AList.lookup_insert_ne h]

@[simp] theorem setJob_uniques : (q.setJob j).uniques = q.uniques := rfl
@[simp] theorem setJob_once : (q.setJob j).once = q.once := rfl
@[simp] theorem setJob_closed : (q.setJob j).closed = q.closed := rfl
@[simp] theorem setJob_seq : (q.setJob j).seq = q.seq := rfl

@[simp] theorem lookup_dropJob_self : (q.dropJob k).jobs.lookup k = none := by
  simp [dropJob]

theorem lookup_dropJob_ne {k k' : MemoryKey} (h : k' ≠ k) :
    (q.dropJob k).jobs.lookup k' = q.jobs.lookup k' := by
  simp [dropJob, AList.lookup_erase_ne h]

@[simp] theorem dropJob_once : (q.dropJob k).once = q.once := rfl
@[simp] theorem dropJob_closed : (q.dropJob k).closed = q.closed := rfl
@[simp] theorem dropJob_seq : (q.dropJob k).seq = q.seq := rfl

@[simp] theorem lookup_dropJobs :
    (q.dropJobs p).jobs.lookup k = (q.jobs.lookup k).filter fun j => !p j := by
  simp [dropJobs]

@[simp] theorem dropJobs_closed : (q.dropJobs p).closed = q.closed := rfl

@[simp] theorem sweepClaims_jobs : (q.sweepClaims now).jobs = q.jobs := by
  unfold sweepClaims; split <;> rfl

@[simp] theorem sweepClaims_seq : (q.sweepClaims now).seq = q.seq := by
  unfold sweepClaims; split <;> rfl

@[simp] theorem sweepClaims_closed : (q.sweepClaims now).closed = q.closed := by
  unfold sweepClaims; split <;> rfl

@[simp] theorem releaseUnique_jobs : (q.releaseUnique j).jobs = q.jobs := by
  unfold releaseUnique; repeat' split
  all_goals rfl

@[simp] theorem releaseUnique_once : (q.releaseUnique j).once = q.once := by
  unfold releaseUnique; repeat' split
  all_goals rfl

@[simp] theorem releaseUnique_seq : (q.releaseUnique j).seq = q.seq := by
  unfold releaseUnique; repeat' split
  all_goals rfl

@[simp] theorem releaseUnique_closed : (q.releaseUnique j).closed = q.closed := by
  unfold releaseUnique; repeat' split
  all_goals rfl

@[simp] theorem newJob_key (queue : String) (env : Envelope) (at_ : ℤ) (u : Option UniqueKey) :
    (q.newJob now queue env at_ u).key = ⟨queue, env.id⟩ := rfl

@[simp] theorem leaseJob_key (lease : ℤ) (receipt : String) :
    (leaseJob j now lease receipt).key = j.key := rfl

@[simp] theorem releaseJob_key (at_ : ℤ) (uncount : Bool) :
    (q.releaseJob j now at_ uncount).key = j.key := rfl

@[simp] theorem extendJob_key (lease : ℤ) : (extendJob j now lease).key = j.key := rfl

@[simp] theorem buryJob_key (f : Failure) : (buryJob j f).key = j.key := rfl

@[simp] theorem retryJob_key : (q.retryJob j now).key = j.key := rfl

end Fields

/-! ## The guards -/

/-- The lease of `j` is the one the delivery `d` was handed out under. -/
def HeldBy (j : MemoryJob) (d : Delivery) : Prop :=
  j.reserved = true ∧ d.receipt ≠ "" ∧ j.receipt = d.receipt

variable {q : MemoryQueue}

variable {d : Delivery} {o : Option MemoryJob}

theorem leased_eq_ok (h : q.leased d = .ok j) :
    q.jobs.lookup d.key = some j ∧ HeldBy j d := by
  unfold leased at h
  split_ifs at h
  split at h
  · cases h
  · rename_i hj
    split_ifs at h with hheld
    cases h
    exact ⟨hj, by simpa [HeldBy, and_assoc] using hheld⟩

/-- Without the current lease, the error is `ErrLeaseLost`, or `ErrClosed` on a closed queue. -/
theorem leased_eq_error {e : Err} (h : q.leased d = .error e) :
    e = if q.closed then .closed else .leaseLost d.envelope.id := by
  unfold leased at h
  cases hc : q.closed with
  | true => simp [hc] at h; exact h.symm
  | false =>
    simp only [hc, Bool.false_eq_true, if_false] at h ⊢
    split at h
    · cases h; rfl
    · split at h
      · cases h; rfl
      · cases h

variable {queue : String} {k : MemoryKey}

theorem lookupFailed_eq_ok {id : String} {f : Failure} (h : q.lookupFailed queue id = .ok (j, f)) :
    q.jobs.lookup ⟨queue, id⟩ = some j ∧ j.failure = some f := by
  unfold lookupFailed at h
  split_ifs at h
  split at h
  · cases h
  · rename_i hj
    split at h
    · cases h
    · rename_i hf
      cases h
      exact ⟨hj, hf⟩

theorem next_eq_none {now : ℤ} :
    q.next queue now = none ↔
      ∀ k j, q.jobs.lookup k = some j → k.queue = queue → j.available now = false := by
  unfold next
  rw [firstBy_eq_none_iff]
  constructor
  · intro h k j hk hq
    obtain rfl := q.keyed k j hk
    have := h j (mem_jobList.2 hk)
    simpa [show j.queue = queue from hq] using this
  · intro h j hj
    have := h j.key j (mem_jobList.1 hj)
    simpa [MemoryJob.key] using this

theorem next_eq_some {now : ℤ} (h : q.next queue now = some j) :
    q.jobs.lookup j.key = some j ∧ j.queue = queue ∧ j.available now = true := by
  obtain ⟨hj, hp⟩ := firstBy_mem MemoryJob.before_trans MemoryJob.before_asymm h
  simp only [Bool.and_eq_true, decide_eq_true_eq] at hp
  exact ⟨mem_jobList.1 hj, hp⟩

/-! ## The transitions of a job -/

theorem deliver_key (h : j.key = k) (receipt : String) : (deliver j k.queue receipt).key = k := by
  rw [← h]
  rfl

/-- The job an operation names. -/
def target : Op → Option MemoryKey
  | .push queue env _ => some ⟨queue, env.id⟩
  | .pushUnique queue env _ _ => some ⟨queue, env.id⟩
  | .ack d => some d.key
  | .release d _ => some d.key
  | .postpone d _ => some d.key
  | .extend d _ => some d.key
  | .bury d _ => some d.key
  | .retryFailed queue id => some ⟨queue, id⟩
  | .forgetFailed queue id => some ⟨queue, id⟩
  | _ => none

/-- Whether an operation, with the answer it got, changed the job `o` stored under `k`. -/
def Touches (k : MemoryKey) (o : Option MemoryJob) : Op → Answer → Prop
  | .reserve _ _ _, .delivery d => d.key = k
  | .purgeFailed queue before, .purged _ => ∃ j, o = some j ∧ purges queue before j = true
  | .close, _ => True
  | op, .ok => target op = some k
  | _, _ => False

/-- An error says that no job was changed, except by `Close`. -/
theorem not_touches_error {op : Op} (h : op ≠ .close) (e : Err) :
    ¬ Touches k o op (.error e) := by
  cases op with
  | close => exact absurd rfl h
  | _ => exact id

theorem touches_ok_iff {op : Op} (h : op ≠ .close) :
    Touches k o op .ok ↔ target op = some k := by
  cases op with
  | close => exact absurd rfl h
  | _ => exact Iff.rfl

/-- The transitions of the job stored under `k`, by the operation and its answer. -/
inductive JobStep (q : MemoryQueue) (clk : Clock) (k : MemoryKey) :
    Op → Answer → Option MemoryJob → Option MemoryJob → Prop
  | kept {op : Op} {ans : Answer} {o : Option MemoryJob} (h : ¬ Touches k o op ans) :
      JobStep q clk k op ans o o
  | pushed {queue : String} {env : Envelope} {at_ : ℤ} (hk : k = ⟨queue, env.id⟩)
      (hopen : q.closed = false) (hname : validName queue = true) :
      JobStep q clk k (.push queue env at_) .ok none
        (some (q.newJob clk.trd queue env at_ none))
  | pushedUnique {queue : String} {env : Envelope} {at_ : ℤ} {u : UniqueKey}
      (hk : k = ⟨queue, env.id⟩) (hopen : q.closed = false) (hname : validName queue = true)
      (hu : u.validate = none) :
      JobStep q clk k (.pushUnique queue env at_ u) .ok none
        (some (q.newJob clk.trd queue env at_ (some u)))
  | reserved {queues : List String} {lease : ℤ} {receipt : String} {j : MemoryJob}
      (hk : j.key = k) (hl : 0 < lease) (hq : k.queue ∈ queues)
      (ha : j.available clk.fst = true) :
      JobStep q clk k (.reserve queues lease receipt) (.delivery (deliver j k.queue receipt))
        (some j) (some (leaseJob j clk.fst lease receipt))
  | acked {d : Delivery} {j : MemoryJob} (hk : k = d.key) (hd : HeldBy j d) :
      JobStep q clk k (.ack d) .ok (some j) none
  | released {d : Delivery} {at_ : ℤ} {j : MemoryJob} (hk : k = d.key) (hd : HeldBy j d) :
      JobStep q clk k (.release d at_) .ok (some j) (some (q.releaseJob j clk.fst at_ false))
  | postponed {d : Delivery} {at_ : ℤ} {j : MemoryJob} (hk : k = d.key) (hd : HeldBy j d) :
      JobStep q clk k (.postpone d at_) .ok (some j) (some (q.releaseJob j clk.fst at_ true))
  | extended {d : Delivery} {lease : ℤ} {j : MemoryJob} (hk : k = d.key) (hd : HeldBy j d)
      (hl : 0 < lease) :
      JobStep q clk k (.extend d lease) .ok (some j) (some (extendJob j clk.fst lease))
  | buried {d : Delivery} {f : Failure} {j : MemoryJob} (hk : k = d.key) (hd : HeldBy j d) :
      JobStep q clk k (.bury d f) .ok (some j) (some (buryJob j (f.stamp clk.fst)))
  | retried {queue id : String} {j : MemoryJob} (hk : k = ⟨queue, id⟩)
      (hf : j.failure.isSome = true) :
      JobStep q clk k (.retryFailed queue id) .ok (some j) (some (q.retryJob j clk.snd))
  | forgotten {queue id : String} {j : MemoryJob} (hk : k = ⟨queue, id⟩)
      (hf : j.failure.isSome = true) :
      JobStep q clk k (.forgetFailed queue id) .ok (some j) none
  | purged {queue : String} {before : ℤ} {n : ℕ} {j : MemoryJob}
      (hp : purges queue before j = true) :
      JobStep q clk k (.purgeFailed queue before) (.purged n) (some j) none
  | closed {o : Option MemoryJob} : JobStep q clk k .close .ok o none

section Steps

variable {q : MemoryQueue} {clk : Clock} {k : MemoryKey} {op : Op}

/-- An operation that is refused. -/
theorem JobStep.refused {e : Err} (h : op ≠ .close) :
    JobStep q clk k op (.error e) o o := .kept (not_touches_error h e)

/-- An operation that stores `j'` makes its transition at the key of `j'` and keeps every other
job. -/
theorem jobStep_setJob (hjobs : q₀.jobs = q.jobs) {j' : MemoryJob}
    (hne : k ≠ j'.key → ¬ Touches k (q.jobs.lookup k) op ans)
    (hself : k = j'.key → JobStep q clk k op ans (q.jobs.lookup k) (some j')) :
    JobStep q clk k op ans (q.jobs.lookup k) ((q₀.setJob j').jobs.lookup k) := by
  by_cases hk : k = j'.key
  · rw [lookup_setJob_of_key _ _ hk.symm]
    exact hself hk
  · rw [lookup_setJob_ne _ _ hk, hjobs]
    exact .kept (hne hk)

/-- An operation on a stored job, which stays under its key. -/
theorem jobStep_stored (hjobs : q₀.jobs = q.jobs) {k' : MemoryKey} {j' : MemoryJob}
    (hj : q.jobs.lookup k' = some j) (hkey : j'.key = j.key) (hop : op ≠ .close)
    (htarget : target op = some k') (hstep : JobStep q clk k' op .ok (some j) (some j')) :
    JobStep q clk k op .ok (q.jobs.lookup k) ((q₀.setJob j').jobs.lookup k) := by
  have hk' : j'.key = k' := hkey.trans (q.keyed _ _ hj)
  refine jobStep_setJob hjobs ?_ ?_
  · simp [touches_ok_iff hop, htarget, eq_comm, hk']
  · rw [hk']
    rintro rfl
    rwa [hj]

/-- An operation that deletes the job under `k'` makes its transition there and keeps every other
job. -/
theorem jobStep_dropJob (hjobs : q₀.jobs = q.jobs) {k' : MemoryKey}
    (hne : k ≠ k' → ¬ Touches k (q.jobs.lookup k) op ans)
    (hself : k = k' → JobStep q clk k op ans (q.jobs.lookup k) none) :
    JobStep q clk k op ans (q.jobs.lookup k) ((q₀.dropJob k').jobs.lookup k) := by
  by_cases hk : k = k'
  · subst hk
    rw [lookup_dropJob_self]
    exact hself rfl
  · rw [lookup_dropJob_ne _ hk, hjobs]
    exact .kept (hne hk)

/-- The transition of the job under `k` that an operation with this result makes. -/
abbrev Steps (q : MemoryQueue) (clk : Clock) (k : MemoryKey) (op : Op) (x : Answer × MemoryQueue) :
    Prop :=
  JobStep q clk k op x.1 (q.jobs.lookup k) (x.2.jobs.lookup k)

theorem enqueue_jobStep (hjobs : q₀.jobs = q.jobs) (hseq : q₀.seq = q.seq) {now : ℤ}
    {env : Envelope} {at_ : ℤ} {u : Option UniqueKey}
    (hne : k ≠ ⟨queue, env.id⟩ → ¬ Touches k (q.jobs.lookup k) op .ok)
    (herr : ∀ e, ¬ Touches k (q.jobs.lookup k) op (.error e))
    (hself : k = ⟨queue, env.id⟩ → JobStep q clk k op .ok none (some (q.newJob now queue env at_ u))) :
    Steps q clk k op (q₀.enqueue now queue env at_ u) := by
  unfold enqueue
  split
  · rw [Steps, hjobs]
    exact .kept (herr _)
  · rename_i hfree
    rw [hjobs] at hfree
    have hnew : q₀.newJob now queue env at_ u = q.newJob now queue env at_ u := by
      simp [newJob, hseq]
    refine jobStep_setJob (by simpa using hjobs) ?_ ?_
    · simpa [hnew] using hne
    · rw [hnew]
      rintro rfl
      have hnone : q.jobs.lookup ⟨queue, env.id⟩ = none := by simpa using hfree
      rw [newJob_key, hnone]
      exact hself rfl

theorem push_jobStep (queue : String) (env : Envelope) (at_ : ℤ) :
    Steps q clk k (.push queue env at_) (q.push clk queue env at_ none) := by
  unfold push
  split
  · exact .refused (by simp)
  rename_i hname
  split
  · exact .refused (by simp)
  split
  · exact .refused (by simp)
  rename_i hopen
  refine enqueue_jobStep rfl rfl ?_ ?_ ?_
  · simp [touches_ok_iff, target, eq_comm]
  · exact not_touches_error (by simp)
  · exact fun hk => .pushed hk (by simpa using hopen) (by simpa using hname)

theorem pushUnique_jobStep (queue : String) (env : Envelope) (at_ : ℤ) (u : UniqueKey) :
    Steps q clk k (.pushUnique queue env at_ u) (q.pushUnique clk queue env at_ u) := by
  unfold pushUnique
  split
  · exact .refused (by simp)
  rename_i hu
  unfold push
  split
  · exact .refused (by simp)
  rename_i hname
  split
  · exact .refused (by simp)
  split
  · exact .refused (by simp)
  rename_i hopen
  have henq : Steps q clk k (.pushUnique queue env at_ u)
      ((q.sweepClaims clk.fst).enqueue clk.trd queue env at_ (some u)) := by
    refine enqueue_jobStep (sweepClaims_jobs ..) (sweepClaims_seq ..) ?_ ?_ ?_
    · simp [touches_ok_iff, target, eq_comm]
    · exact not_touches_error (by simp)
    · exact fun hk => .pushedUnique hk (by simpa using hopen) (by simpa using hname) hu
  dsimp only
  split
  · split
    · rw [Steps, sweepClaims_jobs]
      exact .refused (by simp)
    · exact henq
  · exact henq

theorem reserve_jobStep (queues : List String) (lease : ℤ) (receipt : String) :
    Steps q clk k (.reserve queues lease receipt) (q.reserve clk queues lease receipt) := by
  unfold reserve
  split
  · exact .refused (by simp)
  rename_i hl
  split
  · exact .refused (by simp)
  split
  · exact .refused (by simp)
  -- the loop over the queues, of which `queues'` are left
  have hloop : ∀ queues', queues' ⊆ queues →
      Steps q clk k (.reserve queues lease receipt)
        (q.reserveFrom clk.fst lease receipt queues') := by
    intro queues' hsub
    induction queues' with
    | nil => exact .kept (by simp [reserveFrom, Touches])
    | cons queue queues' ih =>
      rw [List.cons_subset] at hsub
      unfold reserveFrom
      split
      · exact ih hsub.2
      · rename_i j hnext
        obtain ⟨hj, hqueue, havail⟩ := next_eq_some hnext
        subst hqueue
        refine jobStep_setJob rfl ?_ ?_
        · intro hk htouch
          exact hk htouch.symm
        · intro hk
          rw [leaseJob_key] at hk
          subst hk
          rw [hj]
          exact .reserved rfl (by omega) hsub.1 havail
  exact hloop queues (List.Subset.refl _)

theorem ack_jobStep (d : Delivery) : Steps q clk k (.ack d) (q.ack d) := by
  unfold ack
  split
  · exact .refused (by simp)
  · rename_i j hd
    obtain ⟨hj, hheld⟩ := leased_eq_ok hd
    have hkey := q.keyed _ _ hj
    refine jobStep_dropJob (releaseUnique_jobs ..) ?_ ?_
    · simp [touches_ok_iff, target, eq_comm, hkey]
    · rintro rfl
      rw [hkey, hj]
      exact .acked rfl hheld

theorem release_jobStep (d : Delivery) (at_ : ℤ) :
    Steps q clk k (.release d at_) (q.release clk d at_ false) := by
  unfold release
  split
  · exact .refused (by simp)
  · rename_i j hd
    obtain ⟨hj, hheld⟩ := leased_eq_ok hd
    exact jobStep_stored rfl hj (releaseJob_key ..) (by simp) rfl (.released rfl hheld)

theorem postpone_jobStep (d : Delivery) (at_ : ℤ) :
    Steps q clk k (.postpone d at_) (q.release clk d at_ true) := by
  unfold release
  split
  · exact .refused (by simp)
  · rename_i j hd
    obtain ⟨hj, hheld⟩ := leased_eq_ok hd
    exact jobStep_stored rfl hj (releaseJob_key ..) (by simp) rfl (.postponed rfl hheld)

theorem extend_jobStep (d : Delivery) (lease : ℤ) :
    Steps q clk k (.extend d lease) (q.extend clk d lease) := by
  unfold extend
  split
  · exact .refused (by simp)
  rename_i hl
  split
  · exact .refused (by simp)
  · rename_i j hd
    obtain ⟨hj, hheld⟩ := leased_eq_ok hd
    exact jobStep_stored rfl hj (extendJob_key ..) (by simp) rfl (.extended rfl hheld (by omega))

theorem bury_jobStep (d : Delivery) (f : Failure) : Steps q clk k (.bury d f) (q.bury clk d f) := by
  unfold bury
  split
  · exact .refused (by simp)
  · rename_i j hd
    obtain ⟨hj, hheld⟩ := leased_eq_ok hd
    exact jobStep_stored (releaseUnique_jobs ..) hj (buryJob_key ..) (by simp) rfl (.buried rfl hheld)

theorem retryFailed_jobStep (queue id : String) :
    Steps q clk k (.retryFailed queue id) (q.retryFailed clk queue id) := by
  unfold retryFailed
  split
  · exact .refused (by simp)
  rename_i j f hfailed
  obtain ⟨hj, hf⟩ := lookupFailed_eq_ok hfailed
  have hretry : ∀ q₀ : MemoryQueue, q₀.jobs = q.jobs →
      JobStep q clk k (.retryFailed queue id) .ok (q.jobs.lookup k)
        ((q₀.setJob (q.retryJob j clk.snd)).jobs.lookup k) := fun q₀ hjobs =>
    jobStep_stored hjobs hj (retryJob_key ..) (by simp) rfl (.retried rfl (by simp [hf]))
  split
  · exact hretry _ rfl
  · split
    · exact .refused (by simp)
    · exact hretry _ rfl

theorem forgetFailed_jobStep (queue id : String) :
    Steps q clk k (.forgetFailed queue id) (q.forgetFailed queue id) := by
  unfold forgetFailed
  split
  · exact .refused (by simp)
  · rename_i jf hfailed
    obtain ⟨j, f⟩ := jf
    obtain ⟨hj, hf⟩ := lookupFailed_eq_ok hfailed
    refine jobStep_dropJob rfl ?_ ?_
    · simp [touches_ok_iff, target, eq_comm]
    · rintro rfl
      rw [hj]
      exact .forgotten rfl (by simp [hf])

theorem purgeFailed_jobStep (queue : String) (before : ℤ) :
    Steps q clk k (.purgeFailed queue before) (q.purgeFailed queue before) := by
  unfold purgeFailed
  split
  · exact .refused (by simp)
  split
  · exact .refused (by simp)
  rw [Steps, lookup_dropJobs]
  cases hj : q.jobs.lookup k with
  | none => exact .kept (by simp [Touches])
  | some j =>
    cases hp : purges queue before j with
    | true => simpa [Option.filter, hp] using JobStep.purged hp
    | false => simpa [Option.filter, hp] using JobStep.kept (by simp [Touches, hp])

/-- **Every operation makes one transition of every job.** -/
theorem step_jobStep (q : MemoryQueue) (op : Op) (clk : Clock) (k : MemoryKey) :
    JobStep q clk k op (q.step op clk).1 (q.jobs.lookup k) ((q.step op clk).2.jobs.lookup k) := by
  cases op with
  | push queue env at_ => exact push_jobStep ..
  | pushUnique queue env at_ u => exact pushUnique_jobStep ..
  | reserve queues lease receipt => exact reserve_jobStep ..
  | ack d => exact ack_jobStep ..
  | release d at_ => exact release_jobStep ..
  | postpone d at_ => exact postpone_jobStep ..
  | extend d lease => exact extend_jobStep ..
  | bury d f => exact bury_jobStep ..
  | failed queue limit =>
    simp only [step, failed]
    split
    · exact .kept (by simp [Touches])
    · split <;> exact .kept (by simp [Touches])
  | failedJob queue id =>
    simp only [step, failedJob]
    split <;> exact .kept (by simp [Touches])
  | retryFailed queue id => exact retryFailed_jobStep ..
  | forgetFailed queue id => exact forgetFailed_jobStep ..
  | purgeFailed queue before => exact purgeFailed_jobStep ..
  | stats queue =>
    simp only [step, stats]
    split
    · exact .kept (by simp [Touches])
    · split <;> exact .kept (by simp [Touches])
  | beginOnce key token lock =>
    simp only [step, beginOnce]
    split <;> simpa using JobStep.kept (by simp [Touches])
  | finishOnce key token keep =>
    simp only [step, finishOnce]
    split <;> exact .kept (by simp [Touches, target])
  | abandonOnce key token =>
    simp only [step, abandonOnce]
    split <;> exact .kept (by simp [Touches, target])
  | close =>
    simp only [step, close]
    exact .closed

/-- `Reserve` writes at most one job, and nothing else. -/
theorem reserveFrom_queue (q : MemoryQueue) (now lease : ℤ) (receipt : String)
    (queues : List String) :
    (q.reserveFrom now lease receipt queues).2 = q ∨
      ∃ j, (q.reserveFrom now lease receipt queues).2 = q.setJob j := by
  induction queues with
  | nil => exact .inl rfl
  | cons queue queues ih =>
    unfold reserveFrom
    split
    · exact ih
    · exact .inr ⟨_, rfl⟩

/-- Closing is the only way a queue closes, and it stays closed. -/
theorem step_closed (q : MemoryQueue) (op : Op) (clk : Clock) :
    (q.step op clk).2.closed = (q.closed || decide (op = .close)) := by
  have henq : ∀ (q : MemoryQueue) (now : ℤ) (queue : String) (env : Envelope) (at_ : ℤ)
      (u : Option UniqueKey), (q.enqueue now queue env at_ u).2.closed = q.closed := by
    intro q now queue env at_ u
    unfold enqueue
    split <;> rfl
  have hloop : ∀ (now lease : ℤ) (receipt : String) (queues : List String),
      (q.reserveFrom now lease receipt queues).2.closed = q.closed := by
    intro now lease receipt queues
    rcases reserveFrom_queue q now lease receipt queues with h | ⟨j, h⟩ <;> rw [h]
    rfl
  cases op <;> simp only [step, push, pushUnique, reserve, ack, release, extend, bury, failed,
    failedJob, retryFailed, forgetFailed, purgeFailed, stats, beginOnce, finishOnce, abandonOnce,
    close] <;> (repeat' split) <;> simp [henq, hloop]

end Steps

end MemoryQueue

/-! ## Histories -/

/-- One operation of a history: the call, what its clock showed, the answer. -/
structure Event where
  op : Op
  clk : Clock
  ans : Answer
  deriving DecidableEq

/-- The receipt an operation is given to hand out. -/
def Op.draws : Op → List String
  | .reserve _ _ receipt => [receipt]
  | _ => []

/-- A queue in the course of a history, with the last instant its clock showed and the receipts
drawn so far. -/
structure Clocked where
  queue : MemoryQueue
  now : ℤ
  drawn : List String
  deriving DecidableEq

/-- An empty queue at the instant `t`. -/
def Clocked.init (t : ℤ) : Clocked := ⟨.empty, t, []⟩

/-- One operation of a history: the clock never goes back, no receipt is drawn twice, and the
answer and the next queue are the operation's. -/
structure Step (s : Clocked) (e : Event) (s' : Clocked) : Prop where
  clock : s.now ≤ e.clk.fst ∧ e.clk.fst ≤ e.clk.snd ∧ e.clk.snd ≤ e.clk.trd
  fresh : ∀ r ∈ e.op.draws, r ∉ s.drawn
  ans : e.ans = (s.queue.step e.op e.clk).1
  queue : s'.queue = (s.queue.step e.op e.clk).2
  now : s'.now = e.clk.trd
  drawn : s'.drawn = e.op.draws ++ s.drawn

/-- The histories of a queue that starts empty at the instant `t`. -/
abbrev History (t : ℤ) (es : List Event) (s : Clocked) : Prop := Run Step (Clocked.init t) es s

variable {s s' : Clocked}

theorem Step.jobStep {e : Event} (h : Step s e s') (k : MemoryKey) :
    s.queue.JobStep e.clk k e.op e.ans (s.queue.jobs.lookup k) (s'.queue.jobs.lookup k) := by
  rw [h.ans, h.queue]
  exact s.queue.step_jobStep e.op e.clk k

theorem Step.now_le {e : Event} (h : Step s e s') : s.now ≤ s'.now := by
  have := h.clock
  have := h.now
  omega

theorem Step.closed {e : Event} (h : Step s e s') :
    s'.queue.closed = (s.queue.closed || decide (e.op = .close)) := by
  rw [h.queue, MemoryQueue.step_closed]

variable {es : List Event}

/-- A queue is closed exactly when it has been closed. -/
theorem closed_iff {t : ℤ} (h : History t es s) :
    s.queue.closed = true ↔ ∃ e ∈ es, e.op = .close := by
  refine Run.history_induction (I := fun es s => s.queue.closed = true ↔ ∃ e ∈ es, e.op = .close)
    ?_ ?_ h
  · simp [Clocked.init, MemoryQueue.empty]
  · intro es s e s' _ hstep ih
    rw [hstep.closed]
    simp [ih, or_and_right, exists_or]

/-- The jobs of a queue are on queues with a valid name, and a closed queue has none. -/
theorem job_history {t : ℤ} (h : History t es s) {k : MemoryKey}
    (hj : s.queue.jobs.lookup k = some j) : validName k.queue = true ∧ s.queue.closed = false := by
  refine h.preserves (I := fun s => ∀ k j, s.queue.jobs.lookup k = some j →
    validName k.queue = true ∧ s.queue.closed = false) ?_ ?_ k j hj
  · rintro s ⟨op, clk, ans⟩ s' hstep ih k j hj
    have hjs := hstep.jobStep k
    rw [hj] at hjs
    rw [hstep.closed]
    generalize ho : s.queue.jobs.lookup k = o at hjs
    dsimp only at hjs ⊢
    cases hjs with
    | kept hn =>
      have hclose : op ≠ .close := by
        rintro rfl
        exact hn trivial
      simp [ih k _ ho, hclose]
    | pushed hk hopen hname => simp [hk, hopen, hname]
    | pushedUnique hk hopen hname hu => simp [hk, hopen, hname]
    | reserved | released | postponed | extended | buried | retried => simp [ih k _ ho]
  · simp [Clocked.init, MemoryQueue.empty]

/-! ## Playing a script

A fixed history is given by its calls and clock readings; the answers are computed. -/

/-- Where an operation leads. -/
def Clocked.after (s : Clocked) (op : Op) (clk : Clock) : Clocked :=
  ⟨(s.queue.step op clk).2, clk.trd, op.draws ++ s.drawn⟩

/-- The operation keeps the clock and the receipts of a history. -/
def Clocked.legal (s : Clocked) (op : Op) (clk : Clock) : Bool :=
  (s.now ≤ clk.fst && clk.fst ≤ clk.snd && clk.snd ≤ clk.trd) &&
    op.draws.all fun r => !s.drawn.contains r

theorem Clocked.step_after {op : Op} {clk : Clock} (h : s.legal op clk = true)
    (hans : ans = (s.queue.step op clk).1) : Step s ⟨op, clk, ans⟩ (s.after op clk) := by
  simp only [legal, Bool.and_eq_true, decide_eq_true_eq, List.all_eq_true] at h
  obtain ⟨⟨⟨h₁, h₂⟩, h₃⟩, hfresh⟩ := h
  refine ⟨⟨h₁, h₂, h₃⟩, ?_, hans, rfl, rfl, rfl⟩
  intro r hr
  simpa using hfresh r hr

/-- The history of a script, and where it ends. -/
def Clocked.play (s : Clocked) : List (Op × Clock) → List Event × Clocked
  | [] => ([], s)
  | (op, clk) :: rest =>
    let out := (s.after op clk).play rest
    (⟨op, clk, (s.queue.step op clk).1⟩ :: out.1, out.2)

/-- Every operation of the script is legal when its turn comes. -/
def Clocked.legalScript (s : Clocked) : List (Op × Clock) → Bool
  | [] => true
  | (op, clk) :: rest => s.legal op clk && (s.after op clk).legalScript rest

theorem Clocked.run_play {script : List (Op × Clock)} (h : s.legalScript script = true)
    (hes : (s.play script).1 = es) : Run Step s es (s.play script).2 := by
  subst hes
  induction script generalizing s with
  | nil => exact .nil s
  | cons c rest ih =>
    obtain ⟨op, clk⟩ := c
    simp only [legalScript, Bool.and_eq_true] at h
    exact .cons (step_after h.1 rfl) (ih h.2)

/-- The calls of a list of events. -/
def calls (es : List Event) : List (Op × Clock) := es.map fun e => (e.op, e.clk)

/-- Where the calls of `es` lead an empty queue. -/
def afterCalls (es : List Event) : Clocked := ((Clocked.init 0).play (calls es)).2

end Gombit.Jobs
