import Gombit.Jobs.Equivalence
import Mathlib.Data.Set.Card

/-!
# Stats and delivery

`Stats` and `Reserve` compute in separate code, and once per driver, which jobs are available. At
every instant they agree: `Ready` counts what a reservation can take, `OldestReady` is since when the
job it takes was ready, and the four counters add up to the jobs of the queue.

* `Board`: what a state says about delivery at an instant, without the driver.
* `memory_agrees`, `redis_agrees`: each driver against its board.
* `stats_agree`: both, for every reachable state.
* `stats_limits`: what happens beyond the instants and sequence numbers that `stats_agree` allows.
-/

namespace Gombit.Jobs

open Redis RedisKeys List RedisQueue MemoryQueue

/-! ## Boards -/

/-- What a state says about delivery at an instant: how many jobs a queue has, and which of them, by
id, can be delivered, since when and at which place in the sequence. -/
structure Board where
  jobs : String → ℕ
  due : String → String → ℤ → ℕ → Prop

/-- The jobs of all four counters. -/
def QueueStats.total (st : QueueStats) : ℕ := st.ready + st.scheduled + st.reserved + st.failed

namespace Board

variable (b : Board)

/-- No job of the queue can be delivered. -/
def Idle (queue : String) : Prop := ∀ id x n, ¬ b.due queue id x n

/-- The answer delivers, from the first queue with an available job, the one with the least ready
time and sequence number; `leases queue id` says that the job is now under the new lease. -/
inductive DeliversFirst (leases : String → String → Prop) (queues : List String) : Answer → Prop
  | none (h : ∀ queue ∈ queues, b.Idle queue) : DeliversFirst leases queues (.error .noJob)
  | first (pre post : List String) (queue id : String) (n : ℕ) (d : Delivery)
      (hqueues : queues = pre ++ queue :: post) (hpre : ∀ p ∈ pre, b.Idle p) (hqueue : d.queue = queue)
      (hlease : leases queue id) (hdue : b.due queue id d.availableAt n)
      (hleast : ∀ id' x n', b.due queue id' x n' → toLex (d.availableAt, n) ≤ toLex (x, n')) :
      DeliversFirst leases queues (.delivery d)

/-- `Stats` and `Reserve`, given by their answers, agree with the board. -/
structure Agrees (stats : String → Answer) (reserve : List String → Answer)
    (leases : List String → String → String → Prop) : Prop where
  count : ∀ queue, validName queue = true → ∃ st, stats queue = .stats st ∧
    st.total = b.jobs queue ∧ (0 < st.ready ↔ ∃ d, reserve [queue] = .delivery d) ∧
    ∀ d, reserve [queue] = .delivery d → st.oldestReady = d.availableAt
  first : ∀ queues, (∀ queue ∈ queues, validName queue = true) →
    b.DeliversFirst (leases queues) queues (reserve queues)

variable {b} {leases : String → String → Prop} {queues : List String} {answer : Answer}

/-- A queue with nothing to deliver is passed over. -/
theorem DeliversFirst.cons {queue : String} (hidle : b.Idle queue)
    (h : b.DeliversFirst leases queues answer) : b.DeliversFirst leases (queue :: queues) answer := by
  cases h with
  | none h => exact .none (forall_mem_cons.2 ⟨hidle, h⟩)
  | first pre post q id n d hqueues hpre hqueue hlease hdue hleast =>
    exact .first (queue :: pre) post q id n d (by rw [hqueues, cons_append])
      (forall_mem_cons.2 ⟨hidle, hpre⟩) hqueue hlease hdue hleast

end Board

/-! ## The in-memory queue -/

section Memory

variable {q : MemoryQueue} {now : ℤ} {queue : String}

/-- The board of the in-memory queue. -/
def MemoryQueue.board (q : MemoryQueue) (now : ℤ) : Board where
  jobs queue := (q.jobsOf queue).length
  due queue id x n := ∃ j, q.jobs.lookup ⟨queue, id⟩ = some j ∧ j.available now = true ∧
    j.readyAt = x ∧ j.seq = n

theorem MemoryQueue.idle_of_next (h : q.next queue now = none) : (q.board now).Idle queue := by
  rintro id x n ⟨j, hj, hav, -⟩
  rw [next_eq_none.1 h _ j hj rfl] at hav
  cases hav

/-- The loop over the queues delivers the first job. -/
theorem MemoryQueue.reserveFrom_first (q : MemoryQueue) (now lease : ℤ) (receipt : String)
    (queues : List String) :
    (q.board now).DeliversFirst
      (fun queue id => ∃ j, (q.reserveFrom now lease receipt queues).2.jobs.lookup ⟨queue, id⟩ = some j ∧
        j.reserved = true ∧ j.receipt = receipt)
      queues (q.reserveFrom now lease receipt queues).1 := by
  induction queues with
  | nil => exact .none (by simp)
  | cons queue queues ih =>
    rw [reserveFrom]
    cases hnext : q.next queue now with
    | none => exact ih.cons (idle_of_next hnext)
    | some j =>
      obtain ⟨hj, rfl, hav⟩ := next_eq_some hnext
      refine .first [] queues j.queue j.env.id j.seq _ rfl (by simp) rfl
        ⟨leaseJob j now lease receipt, ?_, rfl, rfl⟩ ⟨j, hj, hav, rfl, rfl⟩ ?_
      · exact lookup_setJob_of_key _ _ rfl
      · rintro id x n ⟨i, hi, hiav, rfl, rfl⟩
        have hmem : i ∈ q.jobList := mem_jobList.2 (by rw [q.keyed _ i hi]; exact hi)
        have hiq : i.queue = j.queue := congrArg MemoryKey.queue (q.keyed _ i hi)
        have hle := firstBy_least MemoryJob.before_trans MemoryJob.before_asymm hnext hmem (by
          simp [hiav, hiq])
        rw [← Bool.not_eq_true, MemoryJob.before_iff] at hle
        rw [Prod.Lex.le_iff]
        simp only [deliver, ofLex_toLex]
        omega

theorem countP_total (l : List MemoryJob) :
    (l.countP fun j => j.available now) +
      (l.countP fun j => decide (j.place = .pending) && decide (now < j.placedAt)) +
      (l.countP fun j => decide (j.place = .reserved) && decide (now < j.placedAt)) +
      (l.countP fun j => decide (j.place = .failed)) = l.length := by
  induction l with
  | nil => rfl
  | cons j l ih =>
    rw [countP_cons, countP_cons, countP_cons, countP_cons, length_cons]
    -- every job goes to one counter
    rcases countJob_cases now ⟨0, 0, 0, 0, 0⟩ j with ⟨hav, hp, -⟩ | ⟨hav, hp, hlt, -⟩ |
      ⟨hav, hp, hlt, -⟩ | ⟨hav, hp, hle, -⟩
    · simp [hav, hp]
      omega
    · simp [hav, hp, hlt]
      omega
    · simp [hav, hp, hlt]
      omega
    · simp [hav, hp, not_lt.2 hle]
      omega

/-- A job on a clock after the zero time: ready after it, and never failed and leased at once. -/
def MemoryJob.Dated (j : MemoryJob) : Prop :=
  (j.failure = none → 0 < j.readyAt) ∧ (j.failure.isSome = true → j.reserved = false)

theorem MemoryJob.Dated.failure_eq_none {j : MemoryJob} (h : j.Dated) (hr : j.reserved = true) :
    j.failure = none := by
  by_contra hf
  rw [h.2 (Option.isSome_iff_ne_none.2 hf)] at hr
  cases hr

theorem dated_step {s s' : Clocked} {e : Event} (hstep : Step s e s')
    (h : 0 < s.now ∧ ∀ k j, s.queue.jobs.lookup k = some j → j.Dated) :
    0 < s'.now ∧ ∀ k j, s'.queue.jobs.lookup k = some j → j.Dated := by
  obtain ⟨op, clk, ans⟩ := e
  obtain ⟨hnow, ih⟩ := h
  obtain ⟨h₁, h₂, h₃⟩ := hstep.clock
  have hnow' := hstep.now
  dsimp only at h₁ h₂ h₃ hnow'
  have hat : ∀ at_ now, 0 < now → 0 < atLeast at_ now := by
    intro at_ now hpos
    unfold atLeast
    split <;> omega
  refine ⟨by omega, fun k j hj => ?_⟩
  have hjs := hstep.jobStep k
  rw [hj] at hjs
  generalize ho : s.queue.jobs.lookup k = o at hjs
  dsimp only at hjs
  cases hjs with
  | kept hn => exact ih k j ho
  | pushed | pushedUnique | released | postponed =>
    exact ⟨fun _ => hat _ _ (by omega), fun _ => rfl⟩
  | reserved hk hl hq ha =>
    refine ⟨fun _ => ?_, fun hf => ?_⟩
    · simp only [leaseJob, MemoryJob.readyAt, if_true]
      omega
    · simp [leaseJob, MemoryJob.failure_of_available ha] at hf
  | extended hk hd hl =>
    refine ⟨fun _ => ?_, fun hf => ?_⟩
    · simp only [extendJob, MemoryJob.readyAt, hd.1, if_true]
      omega
    · simp [extendJob, (ih _ _ ho).failure_eq_none hd.1] at hf
  | buried => exact ⟨by simp [buryJob], fun _ => rfl⟩
  | retried hk hf =>
    refine ⟨fun _ => ?_, by simp [retryJob]⟩
    simp only [retryJob, MemoryJob.readyAt, (ih _ _ ho).2 hf, Bool.false_eq_true,
      if_false]
    omega

/-- The instants of a queue's available jobs are after the zero time when its clock is. -/
theorem dated_history {t : ℤ} (ht : 0 < t) {es : List Event} {s : Clocked} (h : History t es s)
    {k : MemoryKey} {j : MemoryJob} (hj : s.queue.jobs.lookup k = some j) : j.Dated := by
  refine (h.preserves (I := fun s => 0 < s.now ∧ ∀ k j, s.queue.jobs.lookup k = some j → j.Dated)
    (fun s e s' hstep => dated_step hstep) ⟨ht, ?_⟩).2 k j hj
  simp [Clocked.init, MemoryQueue.empty]

theorem MemoryQueue.reserve_eq {queues : List String} {lease : ℤ} (hopen : q.closed = false)
    (hlease : 0 < lease) (hnames : ∀ queue ∈ queues, validName queue = true) (clk : Clock)
    (receipt : String) :
    q.reserve clk queues lease receipt = q.reserveFrom clk.fst lease receipt queues := by
  have hfind : queues.find? (fun queue => !validName queue) = none := by
    rw [List.find?_eq_none]
    intro queue hqueue
    simp [hnames queue hqueue]
  rw [reserve, if_neg (by omega), hfind]
  simp [hopen]

/-- **Stats and Reserve of the in-memory queue agree**, at every instant. -/
theorem memory_agrees (hopen : q.closed = false)
    (hdated : ∀ k j, q.jobs.lookup k = some j → j.Dated) (now : ℤ) {lease : ℤ} (hlease : 0 < lease)
    (receipt : String) :
    (q.board now).Agrees (fun queue => (q.stats (.const now) queue).1)
      (fun queues => (q.reserve (.const now) queues lease receipt).1)
      fun queues queue id => ∃ j,
        (q.reserve (.const now) queues lease receipt).2.jobs.lookup ⟨queue, id⟩ = some j ∧
          j.reserved = true ∧ j.receipt = receipt where
  count queue hname := by
    have hcounted := counted_stats (l := q.jobsOf queue) fun j hj (hav : j.available now = true) =>
      (hdated _ j (mem_jobsOf.1 hj)).1 (MemoryJob.failure_of_available hav)
    set st := (q.jobsOf queue).foldl (countJob now) ⟨0, 0, 0, 0, 0⟩ with hst
    have hready : 0 < st.ready ↔ ∃ j ∈ q.jobsOf queue, j.available now = true := by
      rw [hcounted.ready, countP_pos_iff]
    have hone : ∀ p ∈ [queue], validName p = true := by simpa using hname
    simp only [MemoryQueue.reserve_eq hopen hlease hone, MemoryQueue.reserveFrom, Clock.const]
    refine ⟨st, ?_, ?_, ?_, ?_⟩
    · simp only [MemoryQueue.stats, hname, hopen, Bool.not_true, Bool.false_eq_true, if_false]
      rfl
    · rw [QueueStats.total, hcounted.ready, hcounted.scheduled, hcounted.reserved, hcounted.failed]
      exact countP_total _
    · rw [hready]
      cases hnext : q.next queue now with
      | none =>
        refine iff_of_false ?_ (by simp)
        rintro ⟨j, hj, hav⟩
        exact idle_of_next hnext _ _ _ ⟨j, mem_jobsOf.1 hj, hav, rfl, rfl⟩
      | some j =>
        obtain ⟨hj, rfl, hav⟩ := next_eq_some hnext
        exact iff_of_true ⟨j, mem_jobsOf.2 hj, hav⟩ ⟨_, rfl⟩
    · intro d hd
      cases hnext : q.next queue now with
      | none => simp [hnext] at hd
      | some j =>
        simp only [hnext, Answer.delivery.injEq] at hd
        subst hd
        exact hcounted.oldest.eq_readyAt hnext
  first queues hnames := by
    simp only [MemoryQueue.reserve_eq hopen hlease hnames]
    exact q.reserveFrom_first now lease receipt queues

end Memory

/-! ## Scores and sequence numbers in Redis -/

namespace RedisKeys

variable {q q' : RedisKeys} {id m : String}

/-- The member is numbered, by a number drawn before. -/
def Numbered (q : RedisKeys) (m : String) : Prop := ∃ n ≤ q.seq, ∃ id, m = member n id

/-- Waiting and leased jobs stand at instants from 1970 on, under numbered members. -/
def Timed (q : RedisKeys) : Prop :=
  ∀ key ≠ SetKey.failed, ∀ m x, (q.set key).lookup m = some x → 0 ≤ x ∧ q.Numbered m

theorem Numbered.mono (h : q.Numbered m) (hseq : q.seq ≤ q'.seq) : q'.Numbered m := by
  obtain ⟨n, hn, id, rfl⟩ := h
  exact ⟨n, hn.trans hseq, id, rfl⟩

theorem Timed.of_set_eq (h : q.Timed) (hset : q'.set = q.set) (hseq : q.seq ≤ q'.seq) :
    q'.Timed := by
  intro key hkey m x hx
  rw [hset] at hx
  exact ⟨(h key hkey m x hx).1, (h key hkey m x hx).2.mono hseq⟩

theorem Timed.setJob (h : q.Timed) (id : String) (hash : JobHash) : (q.setJob id hash).Timed :=
  h.of_set_eq rfl le_rfl

theorem Timed.zrem (h : q.Timed) (key : SetKey) (m : String) : (q.zrem key m).Timed := by
  intro key' hkey m' x hx
  by_cases hsame : key' = key ∧ m' = m
  · obtain ⟨rfl, rfl⟩ := hsame
    simp [RedisKeys.zrem] at hx
  · rw [lookup_zrem_ne _ _ _ hsame] at hx
    exact h key' hkey m' x hx

theorem Timed.zadd (h : q.Timed) {key : SetKey} {score : ℤ} (hscore : key ≠ .failed → 0 ≤ score)
    (hm : key ≠ .failed → q.Numbered m) : (q.zadd key score m).Timed := by
  intro key' hkey m' x hx
  by_cases hsame : key' = key ∧ m' = m
  · obtain ⟨rfl, rfl⟩ := hsame
    rw [lookup_zadd_self] at hx
    obtain rfl := Option.some.inj hx
    refine ⟨?_, hm hkey⟩
    rw [onAbs, if_pos (hscore hkey)]
    omega
  · rw [lookup_zadd_ne _ _ _ _ hsame] at hx
    exact h key' hkey m' x hx

theorem Timed.queued (h : q.Timed) (id : String) (hash : JobHash) {at_ : ℤ} (hat : 0 ≤ at_) :
    (q.queued id hash at_).Timed := by
  have hincr : q.incr.Timed := h.of_set_eq rfl (Nat.le_succ _)
  exact (hincr.setJob id _).zadd (fun _ => hat) fun _ => ⟨q.seq + 1, le_rfl, id, rfl⟩

/-- The instants a call sends are from 1970 on. -/
def Call.Dated : Call → Prop
  | .push _ at_ _ => 0 ≤ at_
  | .pushUnique _ _ at_ _ _ _ _ => 0 ≤ at_
  | .reserve _ deadline _ => 0 ≤ deadline
  | .release _ _ at_ _ => 0 ≤ at_
  | .extend _ _ deadline => 0 ≤ deadline
  | .retryFailed _ _ now => 0 ≤ now
  | _ => True

theorem Timed.dropFailed (h : q.Timed) (ids : List String) : (q.dropFailed ids).Timed := by
  induction ids generalizing q with
  | nil => exact h
  | cons id ids ih => exact ih ((h.zrem .failed id).setJob id _)

section Calls

variable (hcon : q.Consistent) (h : q.Timed)

include hcon h

variable {receipt : String} {server : ℤ}

/-- The member of a job under a lease is numbered. -/
theorem numbered_leased (hr : (q.job id).receipt = some receipt) (hne : receipt ≠ "") :
    ∃ m, (q.job id).member = some m ∧ q.Numbered m := by
  obtain ⟨m, hfits, honly⟩ := hcon.leased hr hne
  obtain ⟨x, hx⟩ := Option.isSome_iff_exists.1 (AList.lookup_isSome.2 honly.mem)
  exact ⟨m, hfits.member (by simp), (h .reserved (by simp) m x hx).2⟩

omit hcon in
theorem timed_pushUnique {env : String} {at_ : ℤ} {key : String} {ttl : ℤ}
    {untilDone : Bool} (hat : 0 ≤ at_) :
    ((Call.pushUnique server env at_ id key ttl untilDone).exec q).Timed := by
  rcases le_or_gt ttl 0 with httl | httl
  · rw [exec_pushUnique_of_nonpos httl]
    exact h
  · have hrun := run_pushUniqueScript q id server env at_ key untilDone httl
    cases hk : getKey q.unique server key with
    | some holder =>
      rw [hk] at hrun
      rw [Call.exec, after_eq hrun]
      exact h
    | none =>
      simp only [hk] at hrun
      split at hrun
      · rw [Call.exec, after_eq hrun]
        have hclaimed : (q.claimed server key id ttl).Timed := h.of_set_eq rfl le_rfl
        exact hclaimed.queued id _ hat
      · rw [Call.exec, after_eq hrun]
        exact h

theorem timed_reserve {now deadline : ℤ} (hdeadline : 0 ≤ deadline) :
    ((Call.reserve now deadline receipt).exec q).Timed := by
  have hrun := run_reserveScript hcon now deadline receipt
  cases hp : pick (onAbs toDouble now) q with
  | none =>
    rw [hp] at hrun
    rw [Call.exec, after_eq hrun]
    exact h
  | some x =>
    obtain ⟨source, since, m⟩ := x
    obtain ⟨hsource, hlookup, -⟩ := pick_spec hp
    rw [hp] at hrun
    rw [Call.exec, after_eq hrun]
    exact ((h.zrem source m).setJob _ _).zadd (fun _ => hdeadline)
      fun _ => (h source hsource m since hlookup).2

/-- The settling calls, by whether the receipt is the job's. -/
theorem timed_settle (id : String) {c : Call} (hne : receipt ≠ "")
    (hlost : (q.job id).receipt ≠ some receipt → c.exec q = q)
    (hheld : ∀ m, (q.job id).receipt = some receipt → (q.job id).member = some m → q.Numbered m →
      (c.exec q).Timed) : (c.exec q).Timed := by
  by_cases hr : (q.job id).receipt = some receipt
  · obtain ⟨m, hm, hnum⟩ := numbered_leased hcon h hr hne
    exact hheld m hr hm hnum
  · rw [hlost hr]
    exact h

theorem timed_retryFailed {now : ℤ} (hnow : 0 ≤ now) :
    ((Call.retryFailed server id now).exec q).Timed := by
  by_cases hid : id ∈ q.set .failed
  · rcases exec_retryFailed hcon hid with hsame | ⟨q₁, hset, -, hseq, hq₁⟩
    · rw [hsame]
      exact h
    · rw [hq₁, after_eq (run_requeue q₁ id now)]
      exact Timed.queued ((h.of_set_eq hset hseq.ge).zrem .failed id) id _ hnow
  · rw [exec_retryFailed_of_notMem hid]
    exact h

/-- **Every script keeps instants and members in order.** -/
theorem Call.timed {c : Call} (hsent : c.Sent) (hdated : c.Dated) : (c.exec q).Timed := by
  cases c with
  | push env at_ id =>
    have hrun := run_pushScript q id env at_
    split at hrun
    · rw [Call.exec, after_eq hrun]
      exact h.queued id _ hdated
    · rw [Call.exec, after_eq hrun]
      exact h
  | pushUnique => exact timed_pushUnique h hdated
  | reserve => exact timed_reserve hcon h hdated
  | ack server id receipt =>
    refine timed_settle hcon h id hsent (fun hr => ?_) fun m hr hm _ => ?_
    · rw [Call.exec, after_eq (run_of_receipt_ne q id server hr 0 id false "").1]
    · rw [Call.exec, after_eq (run_ackScript q id server hr hm)]
      exact ((Timed.zrem (h.of_set_eq (by simp) (by simp)) .reserved m).zrem .pending m).setJob id _
  | release id receipt at_ uncount =>
    refine timed_settle hcon h id hsent (fun hr => ?_) fun m hr hm _ => ?_
    · rw [Call.exec, after_eq (run_of_receipt_ne q id 0 hr at_ id uncount "").2.1]
    · rw [Call.exec, after_eq (run_releaseScript q id at_ uncount hr hm)]
      exact (h.zrem .reserved m).queued id _ hdated
  | extend id receipt deadline =>
    refine timed_settle hcon h id hsent (fun hr => ?_) fun m hr hm hnum => ?_
    · rw [Call.exec, after_eq (run_of_receipt_ne q id 0 hr deadline id false "").2.2.1]
    · rw [Call.exec, after_eq (run_extendScript q id deadline hr hm)]
      exact h.zadd (fun _ => hdated) fun _ => hnum
  | bury server id receipt failedAt failure =>
    refine timed_settle hcon h id hsent (fun hr => ?_) fun m hr hm _ => ?_
    · rw [Call.exec, after_eq (run_of_receipt_ne q id server hr failedAt id false failure).2.2.2]
    · rw [Call.exec, after_eq (run_buryScript q id server failedAt failure hr hm)]
      exact ((Timed.zrem (h.of_set_eq (by simp) (by simp)) .reserved m).setJob id _).zadd
        (by simp) (by simp)
  | retryFailed => exact timed_retryFailed hcon h hdated
  | forgetFailed id =>
    have hrun := run_forgetFailedScript q id
    split at hrun
    · rw [Call.exec, after_eq hrun]
      exact (h.zrem .failed id).setJob id _
    · rw [Call.exec, after_eq hrun]
      exact h
  | purgeFailed before batch =>
    rw [Call.exec, after_eq (run_purgeFailedScript q before batch)]
    exact h.dropFailed _
  | failedScan => rwa [exec_failedScan hcon]
  | stats => exact h

end Calls

/-- **Every run does**, while its sequence numbers have sixteen digits. -/
theorem timed_run {calls : List Call} (hrun : Run Step .empty calls q)
    (hdated : ∀ c ∈ calls, c.Dated) (hseq : q.seq < seqLimit) : q.Timed := by
  refine Run.preserves_while (I := fun q => q.seq < seqLimit → q.Consistent ∧ q.Timed)
    (P := Call.Dated) ?_ hrun hdated (fun _ => ⟨consistent_empty, by simp [Timed, empty]⟩) hseq |>.2
  intro q c q' hstep hc hq hseq'
  obtain ⟨hcon, htimed⟩ := hq (lt_of_le_of_lt hstep.grows hseq')
  refine ⟨(hstep.effect hcon hseq').consistent hcon, ?_⟩
  rw [hstep.exec]
  exact Call.timed hcon htimed hstep.sent hc

/-! ## The jobs of a queue in Redis -/

/-- The members of the three sets. -/
def places (q : RedisKeys) : List (SetKey × String) :=
  [SetKey.pending, SetKey.reserved, SetKey.failed].flatMap fun key =>
    (q.set key).keys.map (Prod.mk key)

theorem mem_places {key : SetKey} : (key, m) ∈ q.places ↔ m ∈ q.set key := by
  cases key <;> simp [places, AList.mem_keys]

/-- **One place for each job**: the members are as many as the hashes. -/
theorem ncard_jobs (h : q.Consistent) :
    {id | q.job id ≠ .absent}.ncard = (q.set .pending).keys.length +
      (q.set .reserved).keys.length + (q.set .failed).keys.length := by
  let ids := q.places.map fun p => idOf p.1 p.2
  have hnodup : ids.Nodup := by
    refine (nodup_tagged fun key => (q.set key).keys_nodup).map_on ?_
    rintro ⟨key, m⟩ hp ⟨key', m'⟩ hp' hid
    obtain ⟨-, honly⟩ := h.fits (mem_places.1 hp)
    exact Option.some.inj ((honly key' m').1 ⟨mem_places.1 hp', hid.symm⟩)
  have hset : {id | q.job id ≠ .absent} = (ids.toFinset : Set String) := by
    ext id
    simp only [Set.mem_ofPred_eq, coe_toFinset, ids, mem_map, Prod.exists, mem_places]
    constructor
    · intro habs
      cases h id with
      | absent hash => exact absurd hash habs
      | @present key m _ honly => exact ⟨key, m, honly.mem, honly.idOf_eq⟩
    · rintro ⟨key, m, hm, rfl⟩
      exact h.exists hm
  rw [hset, Set.ncard_coe_finset, toFinset_card_of_nodup hnodup, length_map]
  simp [places]
  omega

end RedisKeys

/-! ## The Redis queue -/

section RedisBoard

variable {c : Codec} {q : RedisQueue} {now : ℤ} {queue : String}

/-- The board of the Redis queue. Its instants are milliseconds, and a sequence number is what the
script reads of it: the nearest double, itself up to 2⁵³. -/
noncomputable def RedisQueue.board (q : RedisQueue) (now : ℤ) : Board where
  jobs queue := {id | (q.keys queue).job id ≠ .absent}.ncard
  due queue id x n := ∃ key ≠ SetKey.failed, ∃ y, ∃ n' ≤ (q.keys queue).seq,
    ((q.keys queue).set key).lookup (member n' id) = some y ∧ y ≤ unixMilli now ∧
      x = ofUnixMilli y ∧ n = toDouble n'

/-- What the runs of a queue's scripts keep. -/
structure RedisKeys.Kept (k : RedisKeys) : Prop where
  consistent : k.Consistent
  timed : k.Timed
  seq : k.seq < seqLimit

theorem idle_of_pick (h : pick (unixMilli now) (q.keys queue) = none) :
    (q.board now).Idle queue := by
  rintro id x n ⟨key, hkey, y, n', -, hy, hdue, -⟩
  have hlt := pick_eq_none.1 h key hkey _ y hy
  omega

/-- Due and later members are all the members. -/
theorem dueCount_add (s : SortedSet String) (now : ℤ) :
    dueCount now s + (s.sorted.map ofLex).countP (fun row => decide (now < row.1)) =
      s.keys.length := by
  rw [← SortedSet.length_sorted, ← length_map ofLex,
    length_eq_countP_add_countP (fun row : ℤ × String => decide (row.1 ≤ now)), dueCount]
  simp

theorem dueCount_pos {s : SortedSet String} :
    0 < dueCount now s ↔ ∃ m x, s.lookup m = some x ∧ x ≤ now := by
  rw [dueCount, countP_pos_iff]
  constructor
  · rintro ⟨row, hrow, hdue⟩
    obtain ⟨a, ha, rfl⟩ := mem_map.1 hrow
    exact ⟨_, _, SortedSet.mem_sorted.1 ha, of_decide_eq_true hdue⟩
  · rintro ⟨m, x, hx, hdue⟩
    exact ⟨(x, m), mem_map.2 ⟨toLex (x, m), SortedSet.mem_sorted_toLex.2 hx, rfl⟩,
      decide_eq_true hdue⟩

/-- A due member is counted exactly when there is one to take. -/
theorem dueCount_pos_iff_pick {k : RedisKeys} :
    0 < dueCount now (k.set .pending) + dueCount now (k.set .reserved) ↔ pick now k ≠ none := by
  rw [Ne, pick_eq_none, Nat.add_pos_iff_pos_or_pos, dueCount_pos, dueCount_pos]
  push Not
  constructor
  · rintro (h | h)
    · exact ⟨.pending, by simp, h⟩
    · exact ⟨.reserved, by simp, h⟩
  · rintro ⟨_ | _ | _, hkey, h⟩
    exacts [.inl h, .inr h, absurd rfl hkey]

theorem RedisQueue.reserve_eq {queues : List String} {lease : ℤ} (hopen : q.closed = false)
    (hlease : 0 < lease) (hnames : ∀ queue ∈ queues, validName queue = true) (receipt : String) :
    q.reserve c now queues lease receipt = reserveFrom c now lease receipt queues q := by
  have hfind : queues.find? (fun queue => !validName queue) = none := by
    rw [List.find?_eq_none]
    intro queue hqueue
    simp [hnames queue hqueue]
  rw [reserve, hopen, if_neg (by simp), if_neg (by omega), hfind]

theorem availableAt_delivery (c : Codec) (queue : String) (r : LeaseReply) (receipt : String) :
    (delivery c queue receipt r).availableAt = ofUnixMilli r.since ∧
      (delivery c queue receipt r).queue = queue := by
  unfold delivery
  split <;> exact ⟨rfl, rfl⟩

variable (hearly : 0 ≤ unixMilli now ∧ unixMilli now < 10 ^ 14)

include hearly

theorem unixMilli_exact : onAbs toDouble (unixMilli now) = unixMilli now ∧
    onAbs toFourteenDigits (unixMilli now) = unixMilli now :=
  ⟨onAbs_of_nonneg hearly.1 (toDouble_of_le (by omega)),
    onAbs_of_nonneg hearly.1 (toFourteenDigits_of_lt (by omega))⟩

/-- The script run on a queue, by the member it takes. -/
theorem run_reserve_eq (hk : (q.keys queue).Kept) (deadline : ℤ) (receipt : String) :
    q.run queue (reserveScript (unixMilli now) deadline receipt) =
      match pick (unixMilli now) (q.keys queue) with
      | none => (.ok none, q)
      | some (source, since, m) =>
        (.ok (some ((q.keys queue).leaseReply source since m)),
          q.setKeys queue ((q.keys queue).leasedOut deadline receipt source m)) := by
  have hrun := run_reserveScript hk.consistent (unixMilli now) deadline receipt
  rw [(unixMilli_exact hearly).1] at hrun
  cases hp : pick (unixMilli now) (q.keys queue) with
  | none =>
    rw [hp] at hrun
    simp [run_eq hrun]
  | some x =>
    rw [hp] at hrun
    rw [run_eq hrun]

/-- The loop over the queues delivers the first job. -/
theorem RedisQueue.reserveFrom_first (hkept : ∀ queue, (q.keys queue).Kept) (lease : ℤ)
    (receipt : String) (queues : List String) :
    (q.board now).DeliversFirst
      (fun queue id =>
        (((reserveFrom c now lease receipt queues q).2.keys queue).job id).receipt = some receipt)
      queues (reserveFrom c now lease receipt queues q).1 := by
  induction queues with
  | nil => exact .none (by simp)
  | cons queue queues ih =>
    have hrun := run_reserve_eq hearly (hkept queue) (unixMilli (now + lease)) receipt
    rw [reserveFrom]
    cases hp : pick (unixMilli now) (q.keys queue) with
    | none =>
      rw [hp] at hrun
      rw [hrun]
      exact ih.cons (idle_of_pick hp)
    | some x =>
      obtain ⟨source, since, m⟩ := x
      obtain ⟨hsource, hlookup, hdue, hmin⟩ := pick_spec hp
      obtain ⟨n, hn, id, rfl⟩ := ((hkept queue).timed source hsource m since hlookup).2
      have hseq := (hkept queue).seq
      have hid := memberID_member (lt_of_le_of_lt hn hseq) id
      rw [hp] at hrun
      rw [hrun]
      obtain ⟨hsince, hqueue⟩ := availableAt_delivery c queue
        ((q.keys queue).leaseReply source since (member n id)) receipt
      refine .first [] queues queue id (toDouble n) _ rfl (by simp) hqueue ?_ ?_ ?_
      · simp [RedisKeys.leasedOut, hid]
      · exact ⟨source, hsource, since, n, hn, hlookup, hdue, hsince, rfl⟩
      · rintro id' x n' ⟨key, hkey, y, k, hk, hy, -, rfl, rfl⟩
        have hle := hmin key hkey _ y hy
        rw [← not_lt, Prod.Lex.lt_iff, ofLex_toLex, ofLex_toLex,
          member_lt_iff (lt_of_le_of_lt hk hseq) (lt_of_le_of_lt hn hseq)] at hle
        rw [hsince, Prod.Lex.le_iff]
        simp only [RedisKeys.leaseReply, ofLex_toLex, ofUnixMilli] at hle ⊢
        omega

/-- **Stats and Reserve of the Redis queue agree.** -/
theorem redis_agrees (hopen : q.closed = false) (hkept : ∀ queue, (q.keys queue).Kept) {lease : ℤ}
    (hlease : 0 < lease) (receipt : String) :
    (q.board now).Agrees (fun queue => (q.stats now queue).1)
      (fun queues => (q.reserve c now queues lease receipt).1)
      fun queues queue id =>
        (((q.reserve c now queues lease receipt).2.keys queue).job id).receipt = some receipt where
  count queue hname := by
    obtain ⟨hexact, hdigits⟩ := unixMilli_exact hearly
    have hk := hkept queue
    have hone : ∀ p ∈ [queue], validName p = true := by simpa using hname
    have hrun : ∀ x, (statsScript x).run (q.keys queue) = .ok _ (q.keys queue) := fun _ => rfl
    have hreserve := run_reserve_eq hearly hk (unixMilli (now + lease)) receipt
    have holdest : oldestDue (unixMilli now) (q.keys queue) =
        ((pick (unixMilli now) (q.keys queue)).map fun x => x.2.1).getD (-1) :=
      oldestDue_eq fun key hkey m x hx => (hk.timed key hkey m x hx).1
    simp only [RedisQueue.reserve_eq hopen hlease hone, RedisQueue.reserveFrom, RedisQueue.stats,
      hname, hopen, Bool.not_true, Bool.false_eq_true, if_false, ask_eq (hrun _), hexact,
      hdigits]
    refine ⟨_, rfl, ?_, ?_, ?_⟩
    · have hp := dueCount_add ((q.keys queue).set .pending) (unixMilli now)
      have hr := dueCount_add ((q.keys queue).set .reserved) (unixMilli now)
      simp only [RedisQueue.board, ncard_jobs hk.consistent, QueueStats.total]
      omega
    · rw [dueCount_pos_iff_pick]
      cases hp : pick (unixMilli now) (q.keys queue) with
      | none | some => simp [hreserve, hp]
    · intro d hd
      cases hp : pick (unixMilli now) (q.keys queue) with
      | none => simp [hreserve, hp] at hd
      | some x =>
        obtain ⟨source, since, m⟩ := x
        obtain ⟨hsource, hlookup, -⟩ := pick_spec hp
        have hpos := (hk.timed source hsource m since hlookup).1
        simp only [hreserve, hp, Answer.delivery.injEq] at hd
        rw [holdest, hp, ← hd, (availableAt_delivery c queue _ _).1]
        simp [hpos, RedisKeys.leaseReply]
  first queues hnames := by
    simp only [RedisQueue.reserve_eq hopen hlease hnames]
    exact RedisQueue.reserveFrom_first hearly hkept lease receipt queues

end RedisBoard

/-! ## Every reachable state -/

/-- **Stats agree with delivery** in every reachable state of both drivers: of the in-memory queue
at every instant, when its clock started after the zero time; of the Redis queue at the instants
from 1970 whose milliseconds have fourteen digits, while its sequence numbers have sixteen. -/
theorem stats_agree {lease : ℤ} (hlease : 0 < lease) (receipt : String) :
    (∀ t es s, 0 < t → History t es s → s.queue.closed = false → ∀ now,
      (s.queue.board now).Agrees (fun queue => (s.queue.stats (.const now) queue).1)
        (fun queues => (s.queue.reserve (.const now) queues lease receipt).1)
        fun queues queue id => ∃ j,
          (s.queue.reserve (.const now) queues lease receipt).2.jobs.lookup ⟨queue, id⟩ = some j ∧
            j.reserved = true ∧ j.receipt = receipt) ∧
    ∀ (c : Codec) (q : RedisQueue), q.closed = false →
      (∀ queue, (q.keys queue).seq < seqLimit ∧
        ∃ calls, Run RedisKeys.Step .empty calls (q.keys queue) ∧ ∀ call ∈ calls, call.Dated) →
      ∀ now, 0 ≤ unixMilli now → unixMilli now < 10 ^ 14 →
        (q.board now).Agrees (fun queue => (q.stats now queue).1)
          (fun queues => (q.reserve c now queues lease receipt).1)
          fun queues queue id =>
            (((q.reserve c now queues lease receipt).2.keys queue).job id).receipt =
              some receipt := by
  constructor
  · intro t es s ht h hopen now
    exact memory_agrees hopen (fun k j hj => dated_history ht h hj) now hlease receipt
  · intro c q hopen hq now h0 hearly
    refine redis_agrees ⟨h0, hearly⟩ hopen (fun queue => ?_) hlease receipt
    obtain ⟨hseq, calls, hrun, hdated⟩ := hq queue
    exact ⟨consistent_run hrun hseq, timed_run hrun hdated hseq, hseq⟩

theorem holding_keys_eq (k : RedisKeys) (queue : String) :
    (holding k).keys queue = if queue = "q" then k else .empty := by
  by_cases h : queue = "q" <;> simp [holding, setKeys, RedisQueue.empty, h]

theorem run_holding (calls : List Call) (h : ∀ call ∈ calls, call.Sent) (queue : String) :
    ∃ calls', Run RedisKeys.Step .empty calls'
      ((holding (executed calls)).keys queue) ∧ ∀ call ∈ calls', call ∈ calls := by
  rw [holding_keys_eq]
  split
  · exact ⟨calls, run_executed h, fun _ hcall => hcall⟩
  · exact ⟨[], .nil _, nofun⟩

/-- Two jobs are pushed, the second for later, and the first is leased for 10 ms. -/
def lapsedMemory : Clocked :=
  ((Clocked.init epoch).play [(.push "q" (sampleEnvelope "a") 0, .const epoch),
    (.push "q" (sampleEnvelope "b") (ofUnixMilli 100), .const epoch),
    (.reserve ["q"] (10 ^ 7) "r", .const epoch)]).2

def lapsedCalls : List Call := [.push "e" 0 "a", .push "e" 100 "b", .reserve 0 10 "r"]

def lapsedRedis : RedisQueue := holding (executed lapsedCalls)

/-- On each side, 20 ms later: the job whose lease has lapsed is counted as ready, and handed out since
the time `Stats` gives; the other one is scheduled. -/
theorem stats_agree_lapsed :
    let now := ofUnixMilli 20
    (∃ d, (lapsedMemory.queue.stats (.const now) "q").1 = .stats ⟨1, 1, 0, 0, d.availableAt⟩ ∧
      (lapsedMemory.queue.reserve (.const now) ["q"] 1 "s").1 = .delivery d) ∧
    ∃ d, (lapsedRedis.stats now "q").1 = .stats ⟨1, 1, 0, 0, d.availableAt⟩ ∧
      (lapsedRedis.reserve sampleCodec now ["q"] 1 "s").1 = .delivery d := by
  intro now
  obtain ⟨hmem, hred⟩ := stats_agree (show (0 : ℤ) < 1 by decide) "s"
  constructor
  · have hrun : History epoch _ lapsedMemory := Clocked.run_play (by decide) rfl
    obtain ⟨st, hst, -, hready, holdest⟩ :=
      (hmem epoch _ _ (by decide) hrun (by decide) now).count "q" (by decide)
    have heval : (lapsedMemory.queue.stats (.const now) "q").1 =
        .stats ⟨1, 1, 0, 0, ofUnixMilli 10⟩ := by decide
    obtain rfl := Answer.stats.inj (hst.symm.trans heval)
    obtain ⟨d, hd⟩ := hready.1 (by decide)
    exact ⟨d, by rw [heval, ← holdest d hd], hd⟩
  · have hkeys : ∀ queue, (lapsedRedis.keys queue).seq < seqLimit ∧
        ∃ calls, Run RedisKeys.Step .empty calls (lapsedRedis.keys queue) ∧
          ∀ call ∈ calls, call.Dated := by
      intro queue
      obtain ⟨calls, hrun, hcalls⟩ := run_holding lapsedCalls (by simp [lapsedCalls, Call.Sent]) queue
      refine ⟨?_, calls, hrun, fun call hcall => ?_⟩
      · rw [lapsedRedis, holding_keys_eq]
        split <;> decide +kernel
      · have hdated : ∀ call ∈ lapsedCalls, call.Dated := by simp [lapsedCalls, Call.Dated]
        exact hdated call (hcalls call hcall)
    obtain ⟨st, hst, -, hready, holdest⟩ :=
      (hred sampleCodec lapsedRedis rfl hkeys now (by decide) (by decide)).count "q" (by decide)
    have heval : (lapsedRedis.stats now "q").1 = .stats ⟨1, 1, 0, 0, ofUnixMilli 10⟩ := by
      decide +kernel
    obtain rfl := Answer.stats.inj (hst.symm.trans heval)
    obtain ⟨d, hd⟩ := hready.1 (by decide)
    exact ⟨d, by rw [heval, ← holdest d hd], hd⟩

/-- The Redis queue with the job `a` pushed for the instant `ms`, after `n` numbers were drawn. -/
def pushedRedis (n : ℕ) (ms : ℤ) : RedisQueue := holding ((drawn n).queued "a" (pushedHash "e") ms)

/-- The in-memory queue after the pushes. -/
def pushedMemory (t : ℤ) (pushes : List (String × ℤ)) : Clocked :=
  ((Clocked.init t).play (pushes.map fun p => (.push "q" (sampleEnvelope p.1) p.2, .const t))).2

/-- **Beyond these bounds they do not agree.** A clock at the zero time: `Stats` takes the zero time
for unset. Milliseconds of fifteen digits: the script compares with a number cut to fourteen, and
counts a due job also as scheduled. Instants before 1970: a negative score is taken for none. The
number 10¹⁶ − 1: a job is counted that no reservation delivers. -/
theorem stats_limits :
    (∃ es, History 0 es (pushedMemory 0 [("b", 3), ("a", 0)]) ∧
      ((pushedMemory 0 [("b", 3), ("a", 0)]).queue.stats (.const 3) "q").1 =
        .stats ⟨2, 0, 0, 0, 3⟩ ∧
      ∃ d, ((pushedMemory 0 [("b", 3), ("a", 0)]).queue.reserve (.const 3) ["q"] 1 "r").1 =
        .delivery d ∧ d.availableAt = 0) ∧
    (∀ ms queue, ∃ calls, Run RedisKeys.Step .empty calls ((pushedRedis 0 ms).keys queue)) ∧
    ((pushedRedis 0 (10 ^ 14 + 4)).stats (ofUnixMilli (10 ^ 14 + 4)) "q").1 =
      .stats ⟨1, 1, 0, 0, ofUnixMilli (10 ^ 14 + 4)⟩ ∧
    (((pushedRedis 0 (-1)).stats epoch "q").1 = .stats ⟨1, 0, 0, 0, 0⟩ ∧
      ∃ d, ((pushedRedis 0 (-1)).reserve sampleCodec epoch ["q"] 1 "r").1 = .delivery d ∧
        d.availableAt = ofUnixMilli (-1)) ∧
    ∃ n, (∀ queue, ∃ calls, Run RedisKeys.Step .empty calls ((pushedRedis n 0).keys queue)) ∧
      ((pushedRedis n 0).stats epoch "q").1 = .stats ⟨1, 0, 0, 0, epoch⟩ ∧
      ((pushedRedis n 0).reserve sampleCodec epoch ["q"] 1 "r").1 = .error .noJob := by
  refine ⟨⟨_, Clocked.run_play (by decide) rfl, by decide, _, rfl, by decide⟩, fun ms queue => ?_,
    by decide, ⟨by decide, _, rfl, by decide⟩, 10 ^ 16 - 2, fun queue => ?_, ?_, ?_⟩
  · have hpushed : executed [.push "e" ms "a"] = (drawn 0).queued "a" (pushedHash "e") ms :=
      after_eq (run_pushScript (drawn 0) "a" "e" ms)
    obtain ⟨calls, hrun, -⟩ := run_holding [.push "e" ms "a"] (by simp [Call.Sent]) queue
    rw [pushedRedis, ← hpushed]
    exact ⟨calls, hrun⟩
  · rw [pushedRedis, holding_keys_eq]
    split
    · obtain ⟨calls, hrun⟩ := run_drawn (show 10 ^ 16 - 2 < seqLimit by decide)
      exact ⟨_, hrun.append (.single (step_push _ _ _))⟩
    · exact ⟨[], .nil _⟩
  · rfl
  · have hid : memberID (member (10 ^ 16 - 2 + 1) "a") ≠ "a" := by decide
    generalize 10 ^ 16 - 2 = n at hid
    have hkeys : (pushedRedis n 0).keys "q" = pushedOne "e" "a" n := holding_keys_eq _ _
    have hrun : (pushedRedis n 0).run "q" (reserveScript 0 0 "r") = _ :=
      run_eq (hkeys ▸ run_reserve_lost hid)
    rw [RedisQueue.reserve_eq rfl (by decide) (by decide), RedisQueue.reserveFrom,
      show unixMilli epoch = 0 by decide, show unixMilli (epoch + 1) = 0 by decide, hrun]
    rfl

end Gombit.Jobs
