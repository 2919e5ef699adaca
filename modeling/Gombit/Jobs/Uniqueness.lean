import Gombit.Jobs.Transitions

/-!
# Unique dispatch

A job may be pushed under a uniqueness key: while the key is held, another push under it is
refused. A claim is made by `PushUnique`, and again by `RetryFailed` for a job that gave it up
when it was buried; it lapses after its TTL, and an `UntilDone` claim is dropped when its job is
acknowledged or buried. Expired claims stay in the table until a sweep, or until they are
overwritten.

* `ClaimStep`, `step_claimStep`: what one operation does to the claim of one key.
* `untilDone`: when a job last claimed its key until done, read off the history.
* `Recorded`, `recorded_history`: a job that claimed its key less than its TTL ago is the recorded
  holder of the key.
* `Window`, `window_history`: the same for a window claim, whatever became of its job.
* `unique_dispatch`: the guarantees of `Unique` and `UniqueFor`.
-/

namespace Gombit.Jobs

open MemoryQueue

/-! ## The transitions of a claim -/

theorem sweepClaims_uniques_lookup (q : MemoryQueue) (now : ℤ) (u : MemoryKey) :
    (q.sweepClaims now).uniques.lookup u = q.uniques.lookup u ∨
      ∃ c, q.uniques.lookup u = some c ∧ c.expires ≤ now ∧
        (q.sweepClaims now).uniques.lookup u = none := by
  unfold sweepClaims
  split
  · exact .inl rfl
  · rw [Table.lookup_eraseIf]
    cases hc : q.uniques.lookup u with
    | none => exact .inl rfl
    | some c =>
      by_cases hexp : c.expires ≤ now
      · exact .inr ⟨c, rfl, hexp, by simp [Option.filter, hexp]⟩
      · exact .inl (by simp [Option.filter, hexp])

variable {u k : MemoryKey} {c : MemoryClaim}

/-- The sweep keeps every claim that has not expired. -/
theorem sweepClaims_keeps {q : MemoryQueue} {now : ℤ} (hc : q.uniques.lookup u = some c)
    (hlive : now < c.expires) : (q.sweepClaims now).uniques.lookup u = some c := by
  rcases sweepClaims_uniques_lookup q now u with h | ⟨c', hc', hexp, -⟩
  · rw [h, hc]
  · rw [hc] at hc'
    cases hc'
    omega

/-- The operation, with its answer, claims the key `u`. -/
def Takes (q : MemoryQueue) (u : MemoryKey) : Op → Answer → Prop
  | .pushUnique queue _ _ unique, .ok => ⟨queue, unique.key⟩ = u
  | .retryFailed queue id, .ok =>
    ∃ j, q.jobs.lookup ⟨queue, id⟩ = some j ∧ j.unique ≠ "" ∧ ⟨queue, j.unique⟩ = u
  | _, _ => False

/-- The operations that sweep the expired claims. -/
def Op.sweeps : Op → Bool
  | .pushUnique _ _ _ _ => true
  | .beginOnce _ _ _ => true
  | _ => false

/-- The transitions of the claim of the key `u`, by the operation and its answer. -/
inductive ClaimStep (q : MemoryQueue) (clk : Clock) (u : MemoryKey) :
    Op → Answer → Option MemoryClaim → Option MemoryClaim → Prop
  | kept {op : Op} {ans : Answer} {o : Option MemoryClaim} (hn : ¬ Takes q u op ans) :
      ClaimStep q clk u op ans o o
  | swept {op : Op} {ans : Answer} {c : MemoryClaim} (hop : op.sweeps = true)
      (hc : c.expires ≤ clk.fst) (hn : ¬ Takes q u op ans) :
      ClaimStep q clk u op ans (some c) none
  | claimed {queue : String} {env : Envelope} {at_ : ℤ} {unique : UniqueKey}
      {o : Option MemoryClaim} (hu : u = ⟨queue, unique.key⟩) (hkey : unique.key ≠ "")
      (hfree : ∀ c, o = some c → c.expires ≤ max clk.fst clk.snd) :
      ClaimStep q clk u (.pushUnique queue env at_ unique) .ok o
        (some ⟨env.id, clk.trd + unique.ttl⟩)
  | reclaimed {queue id : String} {j : MemoryJob} {o : Option MemoryClaim}
      (hj : q.jobs.lookup ⟨queue, id⟩ = some j) (hf : j.failure.isSome = true)
      (hkey : j.unique ≠ "") (hu : u = ⟨queue, j.unique⟩)
      (hfree : ∀ c, o = some c → c.expires ≤ clk.fst ∨ c.holder = id) :
      ClaimStep q clk u (.retryFailed queue id) .ok o (some ⟨id, clk.fst + j.uniqueTTL⟩)
  | released {op : Op} {d : Delivery} {j : MemoryJob} {c : MemoryClaim}
      (hop : op = .ack d ∨ ∃ f, op = .bury d f) (hj : q.jobs.lookup d.key = some j)
      (hheld : HeldBy j d) (hu : u = ⟨j.queue, j.unique⟩) (hc : c.holder = j.env.id) :
      ClaimStep q clk u op .ok (some c) none

variable {o' : Option MemoryClaim} {unique : UniqueKey} {env : Envelope} {at_ : ℤ} {id : String}

section Steps

variable {q : MemoryQueue} {clk : Clock} {u : MemoryKey} {o : Option MemoryClaim}

/-- An operation that does not look at the claims keeps them. -/
theorem ClaimStep.of_eq {op : Op} {ans : Answer} (hn : ¬ Takes q u op ans) (h : o' = o) :
    ClaimStep q clk u op ans o o' :=
  h ▸ .kept hn

theorem validate_eq_none (h : unique.validate = none) : unique.key ≠ "" ∧ 0 < unique.ttl := by
  unfold UniqueKey.validate at h
  split_ifs at h
  exact ⟨‹_›, by omega⟩

/-- `PushUnique` sweeps, and then claims the key unless it refuses the job. -/
theorem pushUnique_claimStep (queue : String) (env : Envelope) (at_ : ℤ) (unique : UniqueKey) :
    ClaimStep q clk u (.pushUnique queue env at_ unique) (q.pushUnique clk queue env at_ unique).1
      (q.uniques.lookup u) ((q.pushUnique clk queue env at_ unique).2.uniques.lookup u) := by
  unfold pushUnique
  split
  · exact .kept (by simp [Takes])
  rename_i hvalid
  unfold push
  split
  · exact .kept (by simp [Takes])
  split
  · exact .kept (by simp [Takes])
  split
  · exact .kept (by simp [Takes])
  dsimp only
  have hswept : ∀ ans, ¬ Takes q u (.pushUnique queue env at_ unique) ans →
      ClaimStep q clk u (.pushUnique queue env at_ unique) ans (q.uniques.lookup u)
        ((q.sweepClaims clk.fst).uniques.lookup u) := by
    intro ans hn
    rcases sweepClaims_uniques_lookup q clk.fst u with h | ⟨c, hc, hexp, hnone⟩
    · exact .of_eq hn h
    · rw [hc, hnone]
      exact .swept rfl hexp hn
  have henq : (∀ c, q.uniques.lookup ⟨queue, unique.key⟩ = some c →
        c.expires ≤ max clk.fst clk.snd) →
      ClaimStep q clk u (.pushUnique queue env at_ unique)
        ((q.sweepClaims clk.fst).enqueue clk.trd queue env at_ (some unique)).1
        (q.uniques.lookup u)
        (((q.sweepClaims clk.fst).enqueue clk.trd queue env at_ (some unique)).2.uniques.lookup
          u) := by
    intro hfree
    unfold enqueue
    split
    · exact hswept _ (by simp [Takes])
    · by_cases hu : u = ⟨queue, unique.key⟩
      · subst hu
        rw [setJob_uniques, AList.lookup_insert]
        exact .claimed rfl (validate_eq_none hvalid).1 hfree
      · rw [setJob_uniques, AList.lookup_insert_ne hu]
        exact hswept _ (by simp [Takes, Ne.symm hu])
  split
  · rename_i c hc
    split
    · exact hswept _ (by simp [Takes])
    · rename_i hlate
      refine henq ?_
      intro c' hc'
      rcases sweepClaims_uniques_lookup q clk.fst ⟨queue, unique.key⟩ with h | ⟨c'', hc'', -, h⟩
      · rw [h, hc'] at hc
        cases hc
        omega
      · rw [h] at hc
        cases hc
  · rename_i hnone
    refine henq ?_
    intro c' hc'
    rcases sweepClaims_uniques_lookup q clk.fst ⟨queue, unique.key⟩ with h | ⟨c'', hc'', hexp, -⟩
    · rw [h, hc'] at hnone
      cases hnone
    · rw [hc'] at hc''
      cases hc''
      omega

/-- The claim a job gives up is its own. -/
theorem releaseUnique_uniques (q : MemoryQueue) (j : MemoryJob) (u : MemoryKey) :
    (q.releaseUnique j).uniques.lookup u = q.uniques.lookup u ∨
      ∃ c, q.uniques.lookup u = some c ∧ u = ⟨j.queue, j.unique⟩ ∧ c.holder = j.env.id ∧
        (q.releaseUnique j).uniques.lookup u = none := by
  unfold releaseUnique
  split
  · exact .inl rfl
  split
  · rename_i c hc
    split
    · rename_i hholder
      by_cases hu : u = ⟨j.queue, j.unique⟩
      · subst hu
        exact .inr ⟨c, hc, rfl, hholder, by simp⟩
      · exact .inl (AList.lookup_erase_ne hu)
    · exact .inl rfl
  · exact .inl rfl

variable {j : MemoryJob} {queue : String}

theorem release_claimStep {op : Op} {d : Delivery} (hn : ∀ ans, ¬ Takes q u op ans)
    (hop : op = .ack d ∨ ∃ f, op = .bury d f) (hl : q.leased d = .ok j) :
    ClaimStep q clk u op .ok (q.uniques.lookup u) ((q.releaseUnique j).uniques.lookup u) := by
  obtain ⟨hj, hheld⟩ := leased_eq_ok hl
  rcases releaseUnique_uniques q j u with h | ⟨c, hc, hu, hholder, hnone⟩
  · exact .of_eq (hn _) h
  · rw [hc, hnone]
    exact .released hop hj hheld hu hholder

theorem retryFailed_claimStep (queue id : String) :
    ClaimStep q clk u (.retryFailed queue id) (q.retryFailed clk queue id).1 (q.uniques.lookup u)
      ((q.retryFailed clk queue id).2.uniques.lookup u) := by
  unfold retryFailed
  split
  · exact .kept (by simp [Takes])
  rename_i j f hfailed
  obtain ⟨hj, hf⟩ := lookupFailed_eq_ok hfailed
  split
  · rename_i hnokey
    exact .kept (by simp [Takes, hj, hnokey])
  rename_i hkey
  split
  · exact .kept (by simp [Takes])
  · rename_i hfree
    by_cases hu : u = ⟨queue, j.unique⟩
    · subst hu
      rw [setJob_uniques, AList.lookup_insert]
      refine .reclaimed hj (by simp [hf]) hkey rfl ?_
      intro c hc
      rw [hc] at hfree
      simp only [Option.filter_eq_none_iff, Option.some.injEq, decide_eq_true_eq] at hfree
      by_cases hholder : c.holder = id
      · exact .inr hholder
      · exact .inl (not_lt.1 fun hlt => hfree c rfl ⟨hlt, hholder⟩)
    · rw [setJob_uniques, AList.lookup_insert_ne hu]
      exact .kept (by simp [Takes, hj, Ne.symm hu])

/-- **Every operation makes one transition of every claim.** -/
theorem step_claimStep (q : MemoryQueue) (op : Op) (clk : Clock) (u : MemoryKey) :
    ClaimStep q clk u op (q.step op clk).1 (q.uniques.lookup u)
      ((q.step op clk).2.uniques.lookup u) := by
  cases op with
  | pushUnique queue env at_ unique => exact pushUnique_claimStep ..
  | reserve queues lease receipt =>
    refine .of_eq (by simp [Takes]) ?_
    simp only [MemoryQueue.step, reserve]
    repeat' split
    any_goals rfl
    rcases reserveFrom_queue q clk.fst lease receipt queues with h | ⟨j, h⟩ <;> rw [h]
    rfl
  | ack d =>
    simp only [MemoryQueue.step, MemoryQueue.ack]
    split
    · exact .kept (by simp [Takes])
    · exact release_claimStep (by simp [Takes]) (.inl rfl) ‹_›
  | bury d f =>
    simp only [MemoryQueue.step, bury]
    split
    · exact .kept (by simp [Takes])
    · exact release_claimStep (by simp [Takes]) (.inr ⟨f, rfl⟩) ‹_›
  | retryFailed queue id => exact retryFailed_claimStep ..
  | beginOnce key token lock =>
    simp only [MemoryQueue.step, beginOnce]
    have hn : ∀ ans, ¬ Takes q u (.beginOnce key token lock) ans := by simp [Takes]
    rcases sweepClaims_uniques_lookup q clk.fst u with h | ⟨c, hc, hexp, hnone⟩
    · split <;> exact .of_eq (hn _) h
    · split <;> (rw [hc]; simp only [hnone]; exact .swept rfl hexp (hn _))
  | _ =>
    -- the other operations do not look at the claims
    refine .of_eq (by simp [Takes]) ?_
    simp only [MemoryQueue.step, push, enqueue, release, extend, failed, failedJob, forgetFailed,
      purgeFailed, stats, finishOnce, abandonOnce, close]
    repeat' split
    all_goals rfl

/-- A `PushUnique` that succeeds has claimed its key, which was free. -/
theorem ClaimStep.of_pushUnique (h : ClaimStep q clk u (.pushUnique queue env at_ unique) .ok o o')
    (hu : u = ⟨queue, unique.key⟩) :
    unique.key ≠ "" ∧ (∀ c, o = some c → c.expires ≤ max clk.fst clk.snd) ∧
      o' = some ⟨env.id, clk.trd + unique.ttl⟩ := by
  cases h with
  | kept hn => exact absurd hu.symm hn
  | swept _ _ hn => exact absurd hu.symm hn
  | claimed _ hkey hfree => exact ⟨hkey, hfree, rfl⟩
  | released hop _ _ _ _ => simp at hop

/-- A `RetryFailed` that succeeds has claimed the key the job gave up. -/
theorem ClaimStep.of_retryFailed (h : ClaimStep q clk u (.retryFailed queue id) .ok o o')
    (hj : q.jobs.lookup ⟨queue, id⟩ = some j) (hkey : j.unique ≠ "") (hu : u = ⟨queue, j.unique⟩) :
    o' = some ⟨id, clk.fst + j.uniqueTTL⟩ := by
  cases h with
  | kept hn => exact absurd ⟨j, hj, hkey, hu.symm⟩ hn
  | swept _ _ hn => exact absurd ⟨j, hj, hkey, hu.symm⟩ hn
  | reclaimed hj' _ _ _ _ =>
    rw [hj] at hj'
    cases hj'
    rfl
  | released hop _ _ _ _ => simp at hop

end Steps

variable {s s' : Clocked} {e : Event}

theorem Step.claimStep (h : Step s e s') (u : MemoryKey) :
    ClaimStep s.queue e.clk u e.op e.ans (s.queue.uniques.lookup u)
      (s'.queue.uniques.lookup u) := by
  rw [h.ans, h.queue]
  exact step_claimStep s.queue e.op e.clk u

/-- The operation acknowledged, buried or retried the job `k`. -/
def Event.Ends (e : Event) (k : MemoryKey) : Prop :=
  e.ans = .ok ∧ ((∃ d, (e.op = .ack d ∨ ∃ f, e.op = .bury d f) ∧ d.key = k) ∨
    e.op = .retryFailed k.queue k.id)

/-- **A claim lasts.** Until it expires, a claim is taken away only from a job that remembers its
key, by acknowledging, burying or retrying that job. -/
theorem claim_survives (h : Step s e s') (hc : s.queue.uniques.lookup u = some c)
    (hlive : s'.now < c.expires)
    (hown : ∀ j, s.queue.jobs.lookup ⟨u.queue, c.holder⟩ = some j → j.unique = u.id →
      ¬ e.Ends ⟨u.queue, c.holder⟩) :
    s'.queue.uniques.lookup u = some c := by
  obtain ⟨op, clk, ans⟩ := e
  have hclock := h.clock
  have hnow := h.now
  have hstep := h.claimStep u
  rw [hc] at hstep
  generalize s'.queue.uniques.lookup u = o at hstep ⊢
  dsimp only at hstep hclock hnow
  cases hstep with
  | kept _ => rfl
  | swept _ hexp _ => omega
  | claimed _ _ hfree =>
    have := hfree c rfl
    omega
  | @reclaimed queue id j _ hj _ _ hu hfree =>
    rcases hfree c rfl with hexp | rfl
    · omega
    · subst hu
      exact absurd ⟨rfl, .inr rfl⟩ (hown j hj rfl)
  | @released _ d j _ hop hj _ hu hholder =>
    have hkey := s.queue.keyed _ _ hj
    subst hu
    have hown' := hown j
    rw [hholder] at hown'
    rw [← hkey] at hj
    exact absurd ⟨rfl, .inl ⟨d, hop, hkey.symm⟩⟩ (hown' hj rfl)

/-! ## Claims until done -/

/-- A claim made until done: the key, its TTL, and when. -/
structure Claimed where
  key : String
  ttl : ℤ
  at_ : ℤ
  deriving DecidableEq

/-- What the job `k` has claimed until done, after one more operation. -/
def Event.claimed (k : MemoryKey) (last : Option Claimed) (e : Event) : Option Claimed :=
  match e.op, e.ans with
  | .push queue env _, .ok => if ⟨queue, env.id⟩ = k then none else last
  | .pushUnique queue env _ u, .ok =>
    if ⟨queue, env.id⟩ = k then
      if u.untilDone then some ⟨u.key, u.ttl, e.clk.trd⟩ else none
    else last
  | .retryFailed queue id, .ok =>
    if ⟨queue, id⟩ = k then last.map fun c => { c with at_ := e.clk.fst } else last
  | _, _ => last

/-- The last claim until done of the job `k`, made by its `PushUnique` or `RetryFailed`. -/
def untilDone (k : MemoryKey) (es : List Event) : Option Claimed :=
  es.foldl (Event.claimed k) none

@[simp] theorem untilDone_nil (k : MemoryKey) : untilDone k [] = none := rfl

@[simp] theorem untilDone_append_singleton (k : MemoryKey) (es : List Event) (e : Event) :
    untilDone k (es ++ [e]) = e.claimed k (untilDone k es) := by
  simp [untilDone]

theorem claimed_of_not_touches {o : Option MemoryJob} {last : Option Claimed} {op : Op}
    {clk : Clock} {ans : Answer} (h : ¬ Touches k o op ans) :
    Event.claimed k last ⟨op, clk, ans⟩ = last := by
  cases op <;> cases ans <;> simp_all [Event.claimed, Touches, target]

/-- What the queue remembers of the claims until done. -/
structure Recorded (es : List Event) (s : Clocked) : Prop where
  /-- A job remembers the key it claimed, and for how long. -/
  remembered : ∀ k j, s.queue.jobs.lookup k = some j →
    j.unique = ((untilDone k es).map Claimed.key).getD "" ∧
      j.uniqueTTL = ((untilDone k es).map Claimed.ttl).getD 0
  key_ne : ∀ k c, untilDone k es = some c → c.key ≠ ""
  /-- A job that has not failed holds its key until the TTL has passed. -/
  held : ∀ k j c, s.queue.jobs.lookup k = some j → j.failure = none →
    untilDone k es = some c → s.now < c.at_ + c.ttl →
    s.queue.uniques.lookup ⟨k.queue, c.key⟩ = some ⟨k.id, c.at_ + c.ttl⟩

variable {es : List Event}

/-- A job that keeps its claim and is not acknowledged, buried or retried keeps it recorded. -/
theorem Recorded.held_step (hr : Recorded es s) (h : Step s e s') {j : MemoryJob} {c : Claimed}
    (hj : s.queue.jobs.lookup k = some j) (hf : j.failure = none) (hc : untilDone k es = some c)
    (hlive : s'.now < c.at_ + c.ttl) (hends : ¬ e.Ends k) :
    s'.queue.uniques.lookup ⟨k.queue, c.key⟩ = some ⟨k.id, c.at_ + c.ttl⟩ :=
  claim_survives h (hr.held k j c hj hf hc (by have := h.now_le; omega)) hlive
    fun _ _ _ => hends

theorem Recorded.remembered_step (hr : Recorded es s) (h : Step s e s') {j' : MemoryJob}
    (hj' : s'.queue.jobs.lookup k = some j') :
    j'.unique = ((untilDone k (es ++ [e])).map Claimed.key).getD "" ∧
      j'.uniqueTTL = ((untilDone k (es ++ [e])).map Claimed.ttl).getD 0 := by
  obtain ⟨op, clk, ans⟩ := e
  have hrem := hr.remembered k
  have hstep := h.jobStep k
  rw [untilDone_append_singleton]
  generalize s.queue.jobs.lookup k = o at hstep hrem
  rw [hj'] at hstep
  dsimp only at hstep
  cases hstep with
  | kept hn =>
    rw [claimed_of_not_touches hn]
    exact hrem j' rfl
  | pushed hk _ _ => simp [Event.claimed, hk, newJob]
  | @pushedUnique _ _ _ u hk _ _ _ =>
    cases hu : u.untilDone <;> simp [Event.claimed, hk, newJob, Option.filter, hu]
  | @reserved _ _ _ j _ _ _ _ => exact hrem j rfl
  | @released _ _ j _ _ => exact hrem j rfl
  | @postponed _ _ j _ _ => exact hrem j rfl
  | @extended _ _ j _ _ _ => exact hrem j rfl
  | @buried _ _ j _ _ => exact hrem j rfl
  | retried hk _ =>
    have := hrem _ rfl
    simpa [Event.claimed, hk, retryJob, Option.map_map, Function.comp_def] using this

theorem Recorded.key_ne_step (hr : Recorded es s) (h : Step s e s') {c : Claimed}
    (hc : untilDone k (es ++ [e]) = some c) : c.key ≠ "" := by
  obtain ⟨op, clk, ans⟩ := e
  have hkey := hr.key_ne k
  rw [untilDone_append_singleton] at hc
  unfold Event.claimed at hc
  split at hc
  · split at hc
    · cases hc
    · exact hkey c hc
  · rename_i queue env at_ u hop hans
    dsimp only at hop hans
    subst hop hans
    split at hc
    · split at hc
      · cases hc
        -- the operation succeeded, so it claimed the key, which was checked
        exact ((h.claimStep ⟨queue, u.key⟩).of_pushUnique rfl).1
      · cases hc
    · exact hkey c hc
  · split at hc
    · obtain ⟨c', hc', rfl⟩ := Option.map_eq_some_iff.1 hc
      exact hkey c' hc'
    · exact hkey c hc
  · exact hkey c hc

theorem Recorded.held_after (hr : Recorded es s) (h : Step s e s') {j' : MemoryJob} {c : Claimed}
    (hj' : s'.queue.jobs.lookup k = some j') (hf : j'.failure = none)
    (hc : untilDone k (es ++ [e]) = some c) (hlive : s'.now < c.at_ + c.ttl) :
    s'.queue.uniques.lookup ⟨k.queue, c.key⟩ = some ⟨k.id, c.at_ + c.ttl⟩ := by
  have hkeep := fun j hj hf hc => hr.held_step h (k := k) (j := j) (c := c) hj hf hc hlive
  obtain ⟨op, clk, ans⟩ := e
  have hrem := hr.remembered k
  have hkey := hr.key_ne k
  have hstep := h.jobStep k
  rw [untilDone_append_singleton] at hc
  generalize ho : s.queue.jobs.lookup k = o at hstep hrem hkeep
  rw [hj'] at hstep
  dsimp only at hstep
  cases hstep with
  | kept hn =>
    rw [claimed_of_not_touches hn] at hc
    refine hkeep j' rfl hf hc ?_
    rintro ⟨rfl, ⟨d, hop | ⟨f, hop⟩, rfl⟩ | hop⟩ <;> dsimp only at hop <;> subst hop <;>
      exact hn rfl
  | pushed hk _ _ => simp [Event.claimed, hk] at hc
  | @pushedUnique queue env _ u hk _ _ _ =>
    subst hk
    simp only [Event.claimed, if_true] at hc
    split at hc
    · cases hc
      exact ((h.claimStep ⟨queue, u.key⟩).of_pushUnique rfl).2.2
    · cases hc
  | reserved _ _ _ _ => exact hkeep _ rfl hf hc (by simp [Event.Ends])
  | released _ _ => exact hkeep _ rfl hf hc (by simp [Event.Ends])
  | postponed _ _ => exact hkeep _ rfl hf hc (by simp [Event.Ends])
  | extended _ _ _ => exact hkeep _ rfl hf hc (by simp [Event.Ends])
  | buried _ _ => simp [buryJob] at hf
  | @retried queue id j hk hfailed =>
    subst hk
    simp only [Event.claimed, if_true] at hc
    obtain ⟨c', hc', rfl⟩ := Option.map_eq_some_iff.1 hc
    have hmem := hrem j rfl
    simp only [hc', Option.map_some, Option.getD_some] at hmem
    have hne : j.unique ≠ "" := hmem.1 ▸ hkey c' hc'
    have hclaim := (h.claimStep ⟨queue, c'.key⟩).of_retryFailed ho hne (by rw [hmem.1])
    rw [hmem.2] at hclaim
    exact hclaim

theorem recorded_history {t : ℤ} (h : History t es s) : Recorded es s := by
  refine Run.history_induction (I := Recorded) ⟨?_, ?_, ?_⟩ ?_ h
  · simp [Clocked.init, MemoryQueue.empty]
  · simp
  · simp
  · intro es s e s' _ hstep hr
    exact ⟨fun k j hj => hr.remembered_step hstep hj, fun k c hc => hr.key_ne_step hstep hc,
      fun k j c hj hf hc hlive => hr.held_after hstep hj hf hc hlive⟩

/-! ## Window claims -/

/-- The operation claimed the key `u` for the job `id`, for a window of `ttl`. -/
def Event.Opens (e : Event) (u : MemoryKey) (id : String) (ttl : ℤ) : Prop :=
  e.ans = .ok ∧ ∃ env at_, env.id = id ∧ e.op = .pushUnique u.queue env at_ ⟨u.id, ttl, false⟩

/-- The operation claimed the key `u` for the job `id`, or retried that job. -/
def Event.Claims (e : Event) (u : MemoryKey) (id : String) : Prop :=
  e.ans = .ok ∧ ((∃ env at_ unique, env.id = id ∧ unique.key = u.id ∧
    e.op = .pushUnique u.queue env at_ unique) ∨ e.op = .retryFailed u.queue id)

/-- A window claim of `u` by `id`, that ends at `until_`. Until then it is recorded, and a job
that has the same id since does not remember the key as its own. -/
def Window (u : MemoryKey) (id : String) (until_ : ℤ) (s : Clocked) : Prop :=
  s.now < until_ → s.queue.uniques.lookup u = some ⟨id, until_⟩ ∧
    ∀ j, s.queue.jobs.lookup ⟨u.queue, id⟩ = some j → j.unique ≠ u.id

theorem Window.step {until_ : ℤ} (hkey : u.id ≠ "") (h : Step s e s') (hw : Window u id until_ s) :
    Window u id until_ s' := by
  intro hlive
  have hnow := h.now_le
  obtain ⟨hc, hjobs⟩ := hw (by omega)
  refine ⟨claim_survives h hc hlive fun j hj hu => absurd hu (hjobs j hj), ?_⟩
  obtain ⟨op, clk, ans⟩ := e
  intro j' hj'
  have hstep := h.jobStep ⟨u.queue, id⟩
  generalize s.queue.jobs.lookup ⟨u.queue, id⟩ = o at hstep hjobs
  rw [hj'] at hstep
  dsimp only at hstep
  cases hstep with
  | kept _ => exact hjobs j' rfl
  | pushed _ _ _ => exact fun heq => hkey heq.symm
  | @pushedUnique queue env _ unique hk _ _ _ =>
    -- a push under the key itself would have found the window claim
    intro heq
    cases hunique : unique.untilDone with
    | false => exact hkey (by simpa [newJob, Option.filter, hunique] using heq.symm)
    | true =>
      have hkey' : unique.key = u.id := by simpa [newJob, Option.filter, hunique] using heq
      have hqueue : u.queue = queue := congrArg MemoryKey.queue hk
      have hu : u = ⟨queue, unique.key⟩ := by rw [hkey', ← hqueue]
      have hfree := ((h.claimStep u).of_pushUnique hu).2.1 _ hc
      have hclock := h.clock
      have hend := h.now
      dsimp only at hfree hclock hend
      omega
  | @reserved _ _ _ j _ _ _ _ => exact hjobs j rfl
  | @released _ _ j _ _ => exact hjobs j rfl
  | @postponed _ _ j _ _ => exact hjobs j rfl
  | @extended _ _ j _ _ _ => exact hjobs j rfl
  | @buried _ _ j _ _ => exact hjobs j rfl
  | @retried _ _ j _ _ => exact hjobs j rfl

theorem window_opens {ttl : ℤ} (h : Step s e s') (ho : e.Opens u id ttl) :
    u.id ≠ "" ∧ validName u.queue = true ∧
      s'.queue.uniques.lookup u = some ⟨id, e.clk.trd + ttl⟩ ∧
      Window u id (e.clk.trd + ttl) s' := by
  obtain ⟨op, clk, ans⟩ := e
  obtain ⟨hans, env, at_, rfl, hop⟩ := ho
  dsimp only at hans hop
  subst hans hop
  obtain ⟨hkey, -, hc⟩ := (h.claimStep u).of_pushUnique rfl
  have hstep := h.jobStep ⟨u.queue, env.id⟩
  generalize s.queue.jobs.lookup ⟨u.queue, env.id⟩ = o at hstep
  generalize ho' : s'.queue.jobs.lookup ⟨u.queue, env.id⟩ = o' at hstep
  dsimp only at hstep
  cases hstep with
  | kept hn => exact absurd rfl hn
  | pushedUnique _ _ hname _ =>
    refine ⟨hkey, hname, hc, fun _ => ⟨hc, ?_⟩⟩
    intro j hj
    rw [ho'] at hj
    cases hj
    exact fun heq => hkey heq.symm

/-- A window claim, after any operations that followed it: it stands until its end, and a claim
recorded instead of it was made since. -/
theorem window_history {s₁ s₂ : Clocked} {ttl : ℤ} (h₁ : Step s₁ e s₂) (ho : e.Opens u id ttl)
    (h : Run Step s₂ es s) :
    Window u id (e.clk.trd + ttl) s ∧
      ∀ c, s.queue.uniques.lookup u = some c →
        c = ⟨id, e.clk.trd + ttl⟩ ∨ ∃ e' ∈ es, e'.Claims u c.holder := by
  obtain ⟨hkey, -, hc, hw⟩ := window_opens h₁ ho
  refine ⟨h.preserves (I := Window u id (e.clk.trd + ttl))
    (fun _ _ _ hstep => Window.step hkey hstep) hw, ?_⟩
  refine Run.history_induction (I := fun es s => ∀ c, s.queue.uniques.lookup u = some c →
    c = ⟨id, e.clk.trd + ttl⟩ ∨ ∃ e' ∈ es, e'.Claims u c.holder) ?_ ?_ h
  · intro c hc'
    rw [hc] at hc'
    exact .inl (Option.some.inj hc').symm
  · rintro es s ⟨op, clk, ans⟩ s' _ hstep ih c hc'
    have hclaim := hstep.claimStep u
    generalize s.queue.uniques.lookup u = o at hclaim ih
    rw [hc'] at hclaim
    dsimp only at hclaim
    cases hclaim with
    | kept _ =>
      rcases ih c rfl with heq | ⟨e', he', hcl⟩
      · exact .inl heq
      · exact .inr ⟨e', List.mem_append_left _ he', hcl⟩
    | @claimed queue env at_ unique _ hu _ _ =>
      refine .inr ⟨⟨.pushUnique queue env at_ unique, clk, .ok⟩, by simp, rfl,
        .inl ⟨env, at_, unique, rfl, ?_, ?_⟩⟩ <;> rw [hu]
    | @reclaimed queue id' _ _ _ _ _ hu _ =>
      refine .inr ⟨⟨.retryFailed queue id', clk, .ok⟩, by simp, rfl, .inr ?_⟩
      rw [hu]

/-! ## Refusals -/

section Refusals

variable (h : Step s e s') (hop : e.op = .pushUnique u.queue env at_ unique)
  (hu : unique.key = u.id)

include h hop hu

/-- A push under a key whose claim has not expired fails. -/
theorem pushUnique_ne_ok (hc : s.queue.uniques.lookup u = some c) (hlive : e.clk.snd < c.expires) :
    e.ans ≠ .ok := by
  intro hans
  have hclock := h.clock
  have hclaim := h.claimStep u
  rw [hop, hans] at hclaim
  have := (hclaim.of_pushUnique (by rw [hu])).2.1 c hc
  omega

/-- A well-formed push under a key whose claim has not expired is refused, with the holder. -/
theorem pushUnique_refused (hc : s.queue.uniques.lookup u = some c)
    (hlive : e.clk.snd < c.expires) (hopen : s.queue.closed = false)
    (hname : validName u.queue = true) (hvalid : unique.validate = none) (hid : env.id ≠ "") :
    e.ans = .error (.duplicateDispatch u.queue u.id c.holder) := by
  have hclock := h.clock
  have hswept : (s.queue.sweepClaims e.clk.fst).uniques.lookup ⟨u.queue, unique.key⟩ = some c := by
    rw [hu]
    exact sweepClaims_keeps hc (by omega)
  rw [h.ans, hop]
  simp [MemoryQueue.step, pushUnique, hvalid, push, hname, hid, hopen, hu, hswept, hlive]

/-- A push refused for its key has met a claim that has not expired. -/
theorem claim_of_refused {holder : String}
    (hans : e.ans = .error (.duplicateDispatch u.queue u.id holder)) :
    ∃ c, s.queue.uniques.lookup u = some c ∧ c.holder = holder ∧ e.clk.snd < c.expires := by
  rw [h.ans, hop] at hans
  simp only [MemoryQueue.step, pushUnique, push, enqueue, hu] at hans
  split at hans
  · rename_i err hvalid
    unfold UniqueKey.validate at hvalid
    split at hvalid
    · cases hvalid
      simp at hans
    · split at hvalid <;> cases hvalid
      simp at hans
  split at hans
  · simp at hans
  split at hans
  · simp at hans
  split at hans
  · simp at hans
  split at hans
  · rename_i c hc
    split at hans
    · rename_i hlive
      rcases sweepClaims_uniques_lookup s.queue e.clk.fst ⟨u.queue, unique.key⟩
        with h | ⟨_, _, _, h⟩
      · rw [h, hu] at hc
        have hholder : c.holder = holder := by simpa using hans
        exact ⟨c, hc, hholder, hlive⟩
      · rw [h] at hc
        cases hc
    · split at hans <;> simp at hans
  · split at hans <;> simp at hans

end Refusals

/-! ## The guarantees -/

/-- The job `k` has not failed, and claimed its key until done, as `c`, less than the TTL before
`now`. -/
def LiveClaim (es : List Event) (s : Clocked) (now : ℤ) (k : MemoryKey) (c : Claimed) : Prop :=
  s.now ≤ now ∧ (∃ j, s.queue.jobs.lookup k = some j ∧ j.failure = none) ∧
    untilDone k es = some c ∧ now < c.at_ + c.ttl

theorem LiveClaim.recorded {t now : ℤ} {c : Claimed} (h : History t es s)
    (hl : LiveClaim es s now k c) :
    s.queue.uniques.lookup ⟨k.queue, c.key⟩ = some ⟨k.id, c.at_ + c.ttl⟩ := by
  obtain ⟨hnow, ⟨j, hj, hf⟩, hc, hlive⟩ := hl
  exact (recorded_history h).held k j c hj hf hc (by omega)

/-- **Unique dispatch.** In every history of a `MemoryQueue`:

* the jobs that have not failed and claimed a key until done less than their TTL ago are recorded
  as its holder, so there is at most one;
* a push under the key fails while there is one, and a well-formed one is refused with that
  holder;
* an `Ack` or a `Bury` takes away no claim of another job;
* a window claim makes every other push under its key fail until exactly its end, whatever became
  of its job: a well-formed one is refused with the holder as long as the queue is open, and at or
  after the end a push is refused only for a claim made since;
* the sweep does not change which claims are held. -/
theorem unique_dispatch (t : ℤ) :
    (∀ es s now k c, History t es s → LiveClaim es s now k c →
      s.queue.uniques.lookup ⟨k.queue, c.key⟩ = some ⟨k.id, c.at_ + c.ttl⟩ ∧
        ∀ k' c', LiveClaim es s now k' c' → k'.queue = k.queue → c'.key = c.key → k' = k) ∧
    (∀ es s e s' k c env at_ unique, History t es s → Step s e s' →
      LiveClaim es s e.clk.snd k c → e.op = .pushUnique k.queue env at_ unique →
      unique.key = c.key →
      e.ans ≠ .ok ∧ (unique.validate = none → env.id ≠ "" →
        e.ans = .error (.duplicateDispatch k.queue c.key k.id))) ∧
    (∀ es s e s' d u c, History t es s → Step s e s' →
      (e.op = .ack d ∨ ∃ f, e.op = .bury d f) → s.queue.uniques.lookup u = some c →
      ⟨u.queue, c.holder⟩ ≠ d.key → s'.queue.uniques.lookup u = some c) ∧
    (∀ pre e₁ mid s e s' u id ttl env at_ unique, History t (pre ++ [e₁] ++ mid) s →
      e₁.Opens u id ttl → Step s e s' → e.op = .pushUnique u.queue env at_ unique →
      unique.key = u.id →
      (e.clk.snd < e₁.clk.trd + ttl → e.ans ≠ .ok ∧
        (unique.validate = none → env.id ≠ "" → s.queue.closed = false →
          e.ans = .error (.duplicateDispatch u.queue u.id id))) ∧
      (e₁.clk.trd + ttl ≤ e.clk.snd → ∀ holder,
        e.ans = .error (.duplicateDispatch u.queue u.id holder) →
        ∃ e' ∈ mid, e'.Claims u holder)) ∧
    (∀ (q : MemoryQueue) (now later : ℤ) (u : MemoryKey), now ≤ later →
      ((q.sweepClaims now).uniques.lookup u).filter (fun c => decide (later < c.expires)) =
        (q.uniques.lookup u).filter (fun c => decide (later < c.expires))) := by
  refine ⟨?_, ?_, ?_, ?_, ?_⟩
  · intro es s now k c h hl
    refine ⟨hl.recorded h, ?_⟩
    intro k' c' hl' hqueue hkey
    have hrec := hl.recorded h
    have hrec' := hl'.recorded h
    rw [hqueue, hkey, hrec] at hrec'
    have hid : k.id = k'.id := congrArg MemoryClaim.holder (Option.some.inj hrec')
    obtain ⟨queue, id⟩ := k
    obtain ⟨queue', id'⟩ := k'
    dsimp only at hid hqueue
    rw [hid, hqueue]
  · intro es s e s' k c env at_ unique h hstep hl hop hkey
    have hrec := hl.recorded h
    obtain ⟨-, ⟨j, hj, -⟩, -, hlive⟩ := hl
    obtain ⟨hname, hopen⟩ := job_history h hj
    exact ⟨pushUnique_ne_ok (u := ⟨k.queue, c.key⟩) hstep hop hkey hrec hlive,
      pushUnique_refused (u := ⟨k.queue, c.key⟩) hstep hop hkey hrec hlive hopen hname⟩
  · intro es s e s' d u c _ hstep hop hc hne
    obtain ⟨op, clk, ans⟩ := e
    have hclaim := hstep.claimStep u
    rw [hc] at hclaim
    generalize s'.queue.uniques.lookup u = o at hclaim ⊢
    dsimp only at hclaim hop
    cases hclaim with
    | kept _ => rfl
    | swept hsweep _ _ => rcases hop with rfl | ⟨f, rfl⟩ <;> simp [Op.sweeps] at hsweep
    | claimed | reclaimed => simp at hop
    | @released _ d' j _ hop' hj _ hu hholder =>
      have hd : d = d' := by rcases hop with rfl | ⟨f, rfl⟩ <;> simpa using hop'
      refine absurd ?_ hne
      rw [hu, hholder, hd]
      exact s.queue.keyed _ _ hj
  · intro pre e₁ mid s e s' u id ttl env at_ unique h hopens hstep hop hkey
    obtain ⟨s₂, h₂, hmid⟩ := h.append_inv
    obtain ⟨s₁, -, hstep₁⟩ := h₂.snoc_inv
    obtain ⟨hw, hsince⟩ := window_history hstep₁ hopens hmid
    have hclock := hstep.clock
    refine ⟨fun hlive => ?_, fun hend holder hans => ?_⟩
    · have hc := (hw (by omega)).1
      refine ⟨pushUnique_ne_ok hstep hop hkey hc hlive, ?_⟩
      intro hvalid hid hopen
      have hname := (window_opens hstep₁ hopens).2.1
      exact pushUnique_refused hstep hop hkey hc hlive hopen hname hvalid hid
    · obtain ⟨c, hc, rfl, hlive⟩ := claim_of_refused hstep hop hkey hans
      rcases hsince c hc with rfl | hclaims
      · dsimp only at hlive
        omega
      · exact hclaims
  · intro q now later u hle
    rcases sweepClaims_uniques_lookup q now u with h | ⟨c, hc, hexp, hnone⟩
    · rw [h]
    · rw [hc, hnone]
      simp [Option.filter]
      omega

/-! ### Two pushes under one key

A job pushed at 1 under the key `k` for 10; a second one at 5 is refused. The ack of a job that was
pushed before them, without a key, leaves the claim. -/

def uniqueJob (id : String) : Envelope := ⟨id, "report", 1, "", [], 0, 0⟩

def claimPush (unique : UniqueKey) : Event :=
  ⟨.pushUnique "default" (uniqueJob "1") 0 unique, .const 1, .ok⟩

def secondPush (unique : UniqueKey) : Event :=
  ⟨.pushUnique "default" (uniqueJob "2") 0 unique, .const 5,
    .error (.duplicateDispatch "default" "k" "1")⟩

/-- What a reservation hands out of the other job. -/
def otherDelivery : Delivery := ⟨"default", { uniqueJob "0" with attempt := 1 }, "r", false, 1, none⟩

/-- The other job is pushed, and leased after the claim. -/
def claimedBetween : List Event :=
  [⟨.push "default" (uniqueJob "0") 0, .const 1, .ok⟩, claimPush ⟨"k", 10, true⟩,
    ⟨.reserve ["default"] 10 "r", .const 2, .delivery otherDelivery⟩]

theorem unique_dispatch_second :
    (∃ s s', History 0 [claimPush ⟨"k", 10, true⟩] s ∧ Step s (secondPush ⟨"k", 10, true⟩) s' ∧
      s.queue.uniques.lookup ⟨"default", "k"⟩ = some ⟨"1", 11⟩ ∧
      (secondPush ⟨"k", 10, true⟩).ans ≠ .ok) ∧
    (∃ s s', History 0 claimedBetween s ∧ Step s ⟨.ack otherDelivery, .const 3, .ok⟩ s' ∧
      s'.queue.uniques.lookup ⟨"default", "k"⟩ = some ⟨"1", 11⟩) ∧
    ∃ s s', History 0 ([] ++ [claimPush ⟨"k", 10, false⟩] ++ []) s ∧
      Step s (secondPush ⟨"k", 10, false⟩) s' ∧ (secondPush ⟨"k", 10, false⟩).ans ≠ .ok := by
  obtain ⟨hheld, hrefuse, hsettle, hwindow, -⟩ := unique_dispatch 0
  refine ⟨?_, ?_, ?_⟩
  · have hrun : History 0 [claimPush ⟨"k", 10, true⟩] (afterCalls [claimPush ⟨"k", 10, true⟩]) :=
      Clocked.run_play (by decide) (by decide)
    have hstep : Step (afterCalls [claimPush ⟨"k", 10, true⟩]) (secondPush ⟨"k", 10, true⟩) _ :=
      Clocked.step_after (by decide) (by decide)
    have hlive : LiveClaim [claimPush ⟨"k", 10, true⟩] (afterCalls [claimPush ⟨"k", 10, true⟩]) 5
        ⟨"default", "1"⟩ ⟨"k", 10, 1⟩ :=
      ⟨by decide, ⟨MemoryQueue.empty.newJob 1 "default" (uniqueJob "1") 0
        (some ⟨"k", 10, true⟩), by decide, by decide⟩, by decide, by decide⟩
    exact ⟨_, _, hrun, hstep, (hheld _ _ _ _ _ hrun hlive).1,
      (hrefuse _ _ _ _ _ _ _ _ _ hrun hstep hlive rfl rfl).1⟩
  · have hrun : History 0 claimedBetween (afterCalls claimedBetween) :=
      Clocked.run_play (by decide) (by decide)
    have hstep : Step (afterCalls claimedBetween) ⟨.ack otherDelivery, .const 3, .ok⟩ _ :=
      Clocked.step_after (by decide) (by decide)
    exact ⟨_, _, hrun, hstep, hsettle _ _ _ _ _ ⟨"default", "k"⟩ _ hrun hstep (.inl rfl) (by decide)
      (by decide)⟩
  · have hrun : History 0 ([] ++ [claimPush ⟨"k", 10, false⟩] ++ [])
        (afterCalls [claimPush ⟨"k", 10, false⟩]) :=
      Clocked.run_play (by decide) (by decide)
    have hstep : Step (afterCalls [claimPush ⟨"k", 10, false⟩]) (secondPush ⟨"k", 10, false⟩) _ :=
      Clocked.step_after (by decide) (by decide)
    exact ⟨_, _, hrun, hstep, ((hwindow _ _ _ _ _ _ ⟨"default", "k"⟩ "1" 10 _ _ _ hrun
      ⟨rfl, uniqueJob "1", 0, rfl, rfl⟩ hstep rfl rfl).1 (by decide)).1⟩

end Gombit.Jobs
