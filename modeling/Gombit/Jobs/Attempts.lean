import Gombit.Jobs.Worker

/-!
# The attempt budget

How often a job's handler is started, over whole runs of any number of workers on a queue.

The queue counts attempts at `Reserve`, takes one back at `Postpone` and keeps it at an
interruption; a worker looks at the count in two places only, after a failure and before it runs a
delivery whose previous lease expired. The bound is an invariant of the history (`Budget`):

* a run counts from its start until it ends in an interruption or a postponement (`runs`);
* the runs that count are at most the attempts the queue counts, and one less than the budget
  while the job waits in the queue.

`attempt_budget` is the result.
-/

namespace Gombit.Jobs

open MemoryQueue List

/-! ## Reading a history -/

/-- The operation put the job `k` into the queue with no attempts made: pushed or retried it. -/
def Event.renews (e : Event) (k : MemoryKey) : Bool :=
  match e.op, e.ans with
  | .push queue env _, .ok => decide ((⟨queue, env.id⟩ : MemoryKey) = k)
  | .pushUnique queue env _ _, .ok => decide ((⟨queue, env.id⟩ : MemoryKey) = k)
  | .retryFailed queue id, .ok => decide ((⟨queue, id⟩ : MemoryKey) = k)
  | _, _ => false

/-- The name of the job the operation pushed as `k`. -/
def Event.pushedName (e : Event) (k : MemoryKey) : Option String :=
  match e.op, e.ans with
  | .push queue env _, .ok => if (⟨queue, env.id⟩ : MemoryKey) = k then some env.name else none
  | .pushUnique queue env _ _, .ok =>
    if (⟨queue, env.id⟩ : MemoryKey) = k then some env.name else none
  | _, _ => none

/-- The result is one that does not count as an attempt. -/
def Result.excused (r : Result) : Bool := decide (r = .interrupted ∨ r = .postponed)

/-- The receipts of the runs of `k` that count, after one more event. -/
def countRun (reg : Registry) (k : MemoryKey) (L : List String) : WorkEvent → List String
  | .admin e => if e.renews k then [] else L
  | .reserve e stopping now =>
    match e.delivered with
    | some d =>
      if d.key = k ∧ afterReserve (reg.options d.envelope.name) stopping now d = none then
        d.receipt :: L
      else L
    | none => L
  | .settle c e =>
    match c.op.settles with
    | some d => if d.key = k ∧ e.ans = .ok ∧ c.result.excused then L.erase d.receipt else L
    | none => L
  | _ => L

/-- The runs of the handler of `k` since it was last pushed or retried, without those that ended
in a successful interruption or postponement. -/
def runs (reg : Registry) (k : MemoryKey) (ls : List WorkEvent) : List String :=
  ls.foldl (countRun reg k) []

/-- The name of the job last pushed as `k`, after one more event. -/
def nameAfter (k : MemoryKey) (name : Option String) : WorkEvent → Option String
  | .admin e => (e.pushedName k).or name
  | _ => name

def pushedName (k : MemoryKey) (ls : List WorkEvent) : Option String :=
  ls.foldl (nameAfter k) none

@[simp] theorem runs_nil (reg : Registry) (k : MemoryKey) : runs reg k [] = [] := rfl

@[simp] theorem runs_append_singleton (reg : Registry) (k : MemoryKey) (ls : List WorkEvent)
    (l : WorkEvent) : runs reg k (ls ++ [l]) = countRun reg k (runs reg k ls) l := by
  simp [runs]

@[simp] theorem pushedName_append_singleton (k : MemoryKey) (ls : List WorkEvent)
    (l : WorkEvent) : pushedName k (ls ++ [l]) = nameAfter k (pushedName k ls) l := by
  simp [pushedName]

/-! ## The tasks of the workers -/

/-- Every task is of a delivery that was handed out, no two are of the same one, and the call a
task is to make settles its own delivery. -/
structure Tasks (s : Workers) : Prop where
  receipts : Receipts s.clocked
  drawn : ∀ t ∈ s.tasks, t.delivery.receipt ∈ s.clocked.drawn
  distinct : s.tasks.Pairwise fun t t' => t.delivery.receipt ≠ t'.delivery.receipt
  settles : ∀ t ∈ s.tasks, ∀ c, t.phase = .settling c → c.op.settles = some t.delivery

variable {e : Event} {d : Delivery} {s' : Clocked} {k : MemoryKey}

theorem draws_of_delivered {s : Clocked} (h : Step s e s') (hd : e.delivered = some d) :
    e.op.draws = [d.receipt] := by
  obtain ⟨j, queues, lease, hop, -⟩ := reserved_of_delivered h hd
  rw [hop]
  rfl

variable {s : Workers}

theorem Tasks.mono (hs : Tasks s) (h : Step s.clocked e s') {tasks : List Task}
    (hsub : tasks.Sublist s.tasks) :
    Tasks ⟨s', tasks⟩ where
  receipts := hs.receipts.step h
  drawn t ht := by
    rw [h.drawn]
    exact mem_append_right _ (hs.drawn t (hsub.subset ht))
  distinct := hs.distinct.sublist hsub
  settles t ht := hs.settles t (hsub.subset ht)

variable {t : Task} {l : WorkEvent} {r : String}

theorem Tasks.others (hs : Tasks s) (ht : t ∈ s.tasks) :
    ∀ t' ∈ s.tasks.erase t, t'.delivery.receipt ≠ t.delivery.receipt := by
  intro t' ht' heq
  have hp := hs.distinct.perm (perm_cons_erase ht) (fun h => h.symm)
  exact (pairwise_cons.1 hp).1 t' ht' heq.symm

theorem Tasks.step {reg : Registry} {s' : Workers} (h : WorkStep reg s l s') (hs : Tasks s) :
    Tasks s' := by
  cases h with
  | admin h _ => exact hs.mono h (List.Sublist.refl _)
  | idle h _ _ => exact hs.mono h (List.Sublist.refl _)
  | @reserve e s' stopping now d h hd =>
    have hmono := hs.mono h (List.Sublist.refl _)
    have hdraw := draws_of_delivered h hd
    refine ⟨hmono.receipts, ?_, ?_, ?_⟩
    · intro t ht
      rcases mem_cons.1 ht with rfl | ht
      · rw [h.drawn, hdraw]
        exact mem_append_left _ mem_cons_self
      · exact hmono.drawn t ht
    · refine pairwise_cons.2 ⟨?_, hs.distinct⟩
      intro t ht heq
      have hfresh := h.fresh d.receipt (by rw [hdraw]; exact mem_cons_self)
      exact hfresh (heq ▸ hs.drawn t ht)
    · intro t ht c hc
      rcases mem_cons.1 ht with rfl | ht
      · dsimp only at hc ⊢
        cases hdec : afterReserve (reg.options d.envelope.name) stopping now d with
        | none => simp [hdec, Phase.of] at hc
        | some c' =>
          simp only [hdec, Phase.of, Phase.settling.injEq] at hc
          exact hc ▸ settles_of_afterReserve hdec
      · exact hs.settles t ht c hc
  | reserveLost h _ => exact hs.mono h (List.Sublist.refl _)
  | renew h _ _ => exact hs.mono h (List.Sublist.refl _)
  | @outcome d lost canceled err now c ht hc =>
    refine ⟨hs.receipts, ?_, ?_, ?_⟩
    · intro t ht'
      rcases mem_cons.1 ht' with rfl | ht'
      · exact hs.drawn ⟨d, .running⟩ ht
      · exact hs.drawn t (mem_of_mem_erase ht')
    · refine pairwise_cons.2 ⟨?_, hs.distinct.sublist erase_sublist⟩
      -- the other tasks differ from the running one, which this one replaces
      exact fun t ht' heq => hs.others ht t ht' heq.symm
    · intro t ht' c' hc'
      rcases mem_cons.1 ht' with rfl | ht'
      · cases hc'
        exact settles_of_afterRun hc
      · exact hs.settles t (mem_of_mem_erase ht') c' hc'
  | abandon | gone =>
    exact ⟨hs.receipts, fun t ht => hs.drawn t (mem_of_mem_erase ht),
      hs.distinct.sublist erase_sublist,
      fun t ht => hs.settles t (mem_of_mem_erase ht)⟩
  | settle h _ _ => exact hs.mono h erase_sublist

variable {reg : Registry} {ls : List WorkEvent}

theorem tasks_run {t : ℤ} (h : Run (WorkStep reg) (Workers.init t) ls s) : Tasks s := by
  refine h.preserves (I := Tasks) (fun _ _ _ => Tasks.step) ⟨?_, ?_, ?_, ?_⟩
  · exact receipts_history (.nil _)
  all_goals simp [Workers.init]

/-! ## The budget of one job -/

/-- What holds of the task that has the current lease of a job whose runs `L` count: its run is one
of them, and what it is about to do leaves the job within its budget `M`. -/
def Fits (M : ℤ) (L : List String) (t : Task) : Prop :=
  match t.phase with
  | .running => t.delivery.receipt ∈ L
  | .settling c =>
    match c.op with
    | .release _ _ => if c.result.excused then t.delivery.receipt ∈ L else L.length + 1 ≤ M
    | .postpone _ _ => c.result.excused = true ∧ t.delivery.receipt ∈ L
    | _ => True

/-- The budget `M` of the job `k`, named `name`, whose runs `L` count and which the queue stores
as `o`. -/
structure Budget (M : ℤ) (name : String) (k : MemoryKey) (L : List String)
    (o : Option MemoryJob) (tasks : List Task) : Prop where
  within : L.length ≤ M
  named : ∀ j, o = some j → j.env.name = name
  /-- The queue has counted an attempt for each run. -/
  counted : ∀ j, o = some j → j.failure = none → L.length ≤ j.attempts
  /-- A job that waits can run once more. -/
  waiting : ∀ j, o = some j → j.failure = none → j.reserved = false → L.length + 1 ≤ M
  leased : ∀ t ∈ tasks, t.delivery.key = k → ∀ j, o = some j → j.reserved = true →
    j.receipt = t.delivery.receipt →
    t.delivery.envelope.attempt = j.attempts ∧ t.delivery.envelope.name = name ∧ Fits M L t

variable {j : MemoryJob} {now : ℤ}

section Budget

variable {M : ℤ} {name : String} {k : MemoryKey} {L : List String} {o o' : Option MemoryJob}
  {tasks : List Task} {q : MemoryQueue} {clk : Clock} {op : Op} {ans : Answer}

theorem Budget.mono (hb : Budget M name k L o tasks) {tasks' : List Task}
    (hsub : tasks' ⊆ tasks) : Budget M name k L o tasks' :=
  ⟨hb.within, hb.named, hb.counted, hb.waiting, fun t ht => hb.leased t (hsub ht)⟩

/-- A job that leaves the queue is within its budget. -/
theorem Budget.left (hb : Budget M name k L o tasks) {L' : List String}
    (hlen : L'.length ≤ L.length) (tasks' : List Task) : Budget M name k L' none tasks' where
  within := by have := hb.within; omega
  named := by simp
  counted := by simp
  waiting := by simp
  leased := by simp

/-- A job just put into the queue has its whole budget. -/
theorem Budget.fresh (hM : 1 ≤ M) (hname : j.env.name = name) (hres : j.reserved = false) :
    Budget M name k [] (some j) tasks where
  within := by simp; omega
  named := by rintro i ⟨⟩; exact hname
  counted := by simp
  waiting := by rintro i ⟨⟩ _ _; simpa using hM
  leased := by
    rintro t _ _ i ⟨⟩ hr
    rw [hres] at hr
    cases hr

theorem renews_of_not_touches (h : ¬ Touches k o op ans) :
    (Event.mk op clk ans).renews k = false := by
  cases op <;> cases ans <;> simp_all [Event.renews, Touches, target]

theorem Budget.admin (hb : Budget M name k L o tasks) (hM : 1 ≤ M)
    (hunfailed : ∀ j, o = some j → j.reserved = true → j.failure = none)
    (h : JobStep q clk k op ans o o') (hop : op.isAdmin = true)
    (hname : (Event.mk op clk ans).pushedName k = none) :
    Budget M name k (if (Event.mk op clk ans).renews k then [] else L) o' tasks := by
  cases h with
  | kept hn => simpa [renews_of_not_touches hn] using hb
  | pushed hk _ _ => simp [Event.pushedName, hk] at hname
  | pushedUnique hk _ _ _ => simp [Event.pushedName, hk] at hname
  | @retried queue id j hk hf =>
    have hres : j.reserved = false := by
      rw [← Bool.not_eq_true]
      intro hr
      simp [hunfailed j rfl hr] at hf
    have hrenews : (Event.mk (.retryFailed queue id) clk .ok).renews k = true := by
      simp [Event.renews, hk]
    rw [hrenews]
    exact .fresh hM (hb.named j rfl) hres
  | forgotten | purged | closed => exact hb.left (by split <;> simp) tasks
  | reserved _ _ _ _ => simp [Op.isAdmin] at hop
  | acked | released | postponed | buried => simp [Op.isAdmin, Op.leases, Op.settles] at hop
  | extended _ _ _ => simp [Op.isAdmin, Op.leases] at hop

theorem Budget.pushed (hM : 1 ≤ M) (h : JobStep q clk k op ans o o')
    (hname : (Event.mk op clk ans).pushedName k = some name) :
    Budget M name k (if (Event.mk op clk ans).renews k then [] else L) o' tasks := by
  cases h with
  | kept hn =>
    have : (Event.mk op clk ans).pushedName k = none := by
      cases op <;> cases ans <;> simp_all [Event.pushedName, Touches, target]
    rw [this] at hname
    cases hname
  | pushed hk _ _ =>
    simp only [Event.pushedName, hk, if_true, Option.some.injEq] at hname
    simp only [Event.renews, hk, decide_true, if_true]
    exact .fresh hM hname rfl
  | pushedUnique hk _ _ _ =>
    simp only [Event.pushedName, hk, if_true, Option.some.injEq] at hname
    simp only [Event.renews, hk, decide_true, if_true]
    exact .fresh hM hname rfl
  | _ => simp [Event.pushedName] at hname

/-- A delivery the worker does not set aside leaves room for one more run. -/
theorem Budget.room (hb : Budget M name k L (some j) tasks) (hf : j.failure = none)
    (h : ¬ (j.reserved = true ∧ M < j.attempts + 1)) : L.length + 1 ≤ M := by
  cases hres : j.reserved with
  | false => exact hb.waiting j rfl hf hres
  | true =>
    have hcounted := hb.counted j rfl hf
    have : ¬ M < j.attempts + 1 := fun hlt => h ⟨hres, hlt⟩
    omega

/-- A job just leased, whether or not a worker learns of it. -/
theorem Budget.reserveLost {lease : ℤ} {receipt : String} (hb : Budget M name k L (some j) tasks)
    (hfresh : ∀ t ∈ tasks, t.delivery.receipt ≠ receipt) :
    Budget M name k L (some (leaseJob j now lease receipt)) tasks where
  within := hb.within
  named := by rintro i ⟨⟩; exact hb.named j rfl
  counted := by
    rintro i ⟨⟩ hf
    have := hb.counted j rfl hf
    simp only [leaseJob]
    omega
  waiting := by rintro i ⟨⟩ _ hr; simp [leaseJob] at hr
  leased := by
    rintro t ht _ i ⟨⟩ _ heq
    exact absurd heq.symm (hfresh t ht)

/-- A delivery that reaches a worker. -/
theorem Budget.reserve {stopping : Bool} {lease : ℤ} (hb : Budget M name k L (some j) tasks)
    (hM : (reg.options name).maxAttempts = M) (hf : j.failure = none)
    (hd : d = deliver j d.queue d.receipt) (hfresh : ∀ t ∈ tasks, t.delivery.receipt ≠ d.receipt) :
    Budget M name k
      (if afterReserve (reg.options d.envelope.name) stopping now d = none then d.receipt :: L
        else L)
      (some (leaseJob j clk.fst lease d.receipt))
      (⟨d, .of (afterReserve (reg.options d.envelope.name) stopping now d)⟩ :: tasks) := by
  have hname : d.envelope.name = name := by rw [hd]; exact hb.named j rfl
  have hattempt : d.envelope.attempt = j.attempts + 1 := by rw [hd]; rfl
  have hexpired : d.leaseExpired = j.reserved := by rw [hd]; rfl
  have herr : d.err = none := by rw [hd]; rfl
  have hlost : Budget M name k L (some (leaseJob j clk.fst lease d.receipt)) tasks :=
    hb.reserveLost hfresh
  -- the task of the new lease is the only one that has it
  have hnew : ∀ L' p, L'.length ≤ j.attempts + 1 → L'.length ≤ M → Fits M L' ⟨d, p⟩ →
      Budget M name k L' (some (leaseJob j clk.fst lease d.receipt)) (⟨d, p⟩ :: tasks) := by
    intro L' p hlen hM' hfits
    refine ⟨hM', hlost.named, ?_, ?_, ?_⟩
    · rintro i ⟨⟩ _
      exact_mod_cast hlen
    · rintro i ⟨⟩ _ hr
      simp [leaseJob] at hr
    · intro t ht hk i hi hr heq
      rcases mem_cons.1 ht with rfl | ht
      · cases hi
        exact ⟨hattempt, hname, hfits⟩
      · cases hi
        exact absurd heq.symm (hfresh t ht)
  have hcounted := hb.counted j rfl hf
  have hwithin := hb.within
  rw [hname]
  unfold afterReserve
  simp only [herr, hexpired, hattempt, hM]
  push_cast
  split
  · exact hnew L _ (by omega) hwithin trivial
  · rename_i hroom
    have hroom' := hb.room hf hroom
    split
    · refine hnew L _ (by omega) hwithin ?_
      simpa [Fits, Phase.of, Result.excused] using hroom'
    · refine hnew (d.receipt :: L) _ (by simp; omega) (by simp; omega) ?_
      simp [Fits, Phase.of]

/-- The worker's last call for a delivery. -/
theorem Budget.settle {c : Call} (hb : Budget M name k L o tasks)
    (hunfailed : ∀ j, o = some j → j.reserved = true → j.failure = none) (ht : t ∈ tasks)
    (hphase : t.phase = .settling c) (hset : c.op.settles = some t.delivery)
    (h : JobStep q clk k c.op ans o o') :
    Budget M name k
      (if t.delivery.key = k ∧ ans = .ok ∧ c.result.excused = true then
        L.erase t.delivery.receipt else L) o' (tasks.erase t) := by
  have hlen : (if t.delivery.key = k ∧ ans = .ok ∧ c.result.excused = true then
      L.erase t.delivery.receipt else L).length ≤ L.length := by
    split
    · exact length_erase_le
    · exact le_rfl
  have hwithin := hb.within
  -- what the task knows, when its lease is the job's
  have hmine : ∀ j, o = some j → k = t.delivery.key → HeldBy j t.delivery →
      L.length ≤ j.attempts ∧ Fits M L t := by
    intro j hj hk hheld
    exact ⟨hb.counted j hj (hunfailed j hj hheld.1),
      (hb.leased t ht hk.symm j hj hheld.1 hheld.2.2).2.2⟩
  generalize hop : c.op = op at h hset
  cases h with
  | kept hn =>
    rw [if_neg]
    · exact hb.mono erase_subset
    · rintro ⟨hk, rfl, -⟩
      exact hn (hk ▸ touches_of_leases (leases_of_settles hset))
  | acked _ _ => exact hb.left hlen _
  | @released d at_ j hk hheld =>
    cases hset
    obtain ⟨hcounted, hfits⟩ := hmine j rfl hk hheld
    simp only [Fits, hphase, hop] at hfits
    have hlen' : ((if t.delivery.key = k ∧ (Answer.ok = .ok) ∧ c.result.excused = true then
        L.erase t.delivery.receipt else L).length : ℤ) + 1 ≤ M := by
      split at hfits
      · rename_i hex
        have := length_pos_of_mem hfits
        rw [if_pos ⟨hk.symm, rfl, hex⟩, length_erase_of_mem hfits]
        omega
      · rename_i hex
        rw [if_neg (by simp [hex])]
        exact hfits
    refine ⟨by omega, ?_, ?_, ?_, ?_⟩
    · rintro i ⟨⟩
      exact hb.named j rfl
    · rintro i ⟨⟩ _
      exact le_trans (by exact_mod_cast hlen) hcounted
    · rintro i ⟨⟩ _ _
      exact hlen'
    · rintro t' _ _ i ⟨⟩ hr
      simp [releaseJob] at hr
  | @postponed d at_ j hk hheld =>
    cases hset
    obtain ⟨hcounted, hfits⟩ := hmine j rfl hk hheld
    simp only [Fits, hphase, hop] at hfits
    have hpos := length_pos_of_mem hfits.2
    rw [if_pos ⟨hk.symm, rfl, hfits.1⟩]
    have herase := length_erase_of_mem hfits.2
    refine ⟨by omega, ?_, ?_, ?_, ?_⟩
    · rintro i ⟨⟩
      exact hb.named j rfl
    · rintro i ⟨⟩ _
      simp only [releaseJob, if_true]
      omega
    · rintro i ⟨⟩ _ _
      omega
    · rintro t' _ _ i ⟨⟩ hr
      simp [releaseJob] at hr
  | @buried d f j hk hheld =>
    refine ⟨by omega, ?_, ?_, ?_, ?_⟩
    · rintro i ⟨⟩
      exact hb.named j rfl
    · rintro i ⟨⟩ hf
      simp [buryJob] at hf
    · rintro i ⟨⟩ hf
      simp [buryJob] at hf
    · rintro t' _ _ i ⟨⟩ hr
      simp [buryJob] at hr
  | _ => simp [Op.settles] at hset

theorem Budget.renew {lease : ℤ} (hb : Budget M name k L o tasks)
    (h : JobStep q clk k (.extend d lease) ans o o') : Budget M name k L o' tasks := by
  cases h with
  | kept _ => exact hb
  | @extended _ _ j _ _ _ =>
    refine ⟨hb.within, ?_, ?_, ?_, ?_⟩
    · rintro i ⟨⟩
      exact hb.named j rfl
    · rintro i ⟨⟩ hf
      exact hb.counted j rfl hf
    · rintro i ⟨⟩ hf hr
      exact hb.waiting j rfl hf hr
    · rintro t ht hk i ⟨⟩ hr heq
      exact hb.leased t ht hk j rfl hr heq

/-- The handler of a task has returned. -/
theorem Budget.outcome {lost canceled : Bool}
    {err : Option RunErr} {c : Call} (hb : Budget M name k L o tasks)
    (hM : (reg.options name).maxAttempts = M)
    (hunfailed : ∀ j, o = some j → j.reserved = true → j.failure = none)
    (ht : ⟨d, .running⟩ ∈ tasks)
    (hc : afterRun (reg.options d.envelope.name) lost canceled err now d = some c) :
    Budget M name k L o (⟨d, .settling c⟩ :: tasks.erase ⟨d, .running⟩) := by
  refine ⟨hb.within, hb.named, hb.counted, hb.waiting, ?_⟩
  intro t ht' hk j hj hr heq
  rcases mem_cons.1 ht' with rfl | ht'
  · obtain ⟨hattempt, hname, hrun⟩ := hb.leased ⟨d, .running⟩ ht hk j hj hr heq
    have hcounted := hb.counted j hj (hunfailed j hj hr)
    refine ⟨hattempt, hname, ?_⟩
    dsimp only at hname hattempt
    simp only [Fits] at hrun
    rw [hname] at hc
    unfold afterRun at hc
    dsimp only at hc
    split at hc
    · cases hc
    split at hc
    · cases hc; trivial
    split at hc
    · cases hc
      simpa [Fits, Result.excused] using hrun
    split at hc
    · cases hc
      simpa [Fits, Result.excused] using hrun
    split at hc
    · cases hc; trivial
    · rename_i hleft
      cases hc
      rw [not_or, hM] at hleft
      simp only [Fits, Result.excused]
      simp
      omega
  · exact hb.leased t (mem_of_mem_erase ht') hk j hj hr heq

end Budget

/-! ## Whole runs -/

/-- After the events `ls`, the job last pushed as `k` is within the budget of its policy. -/
def Budgeted (reg : Registry) (k : MemoryKey) (ls : List WorkEvent) (s : Workers) : Prop :=
  match pushedName k ls with
  | none => s.clocked.queue.jobs.lookup k = none ∧ runs reg k ls = []
  | some name => ∀ o, reg.byName name = some o →
    Budget o.maxAttempts name k (runs reg k ls) (s.clocked.queue.jobs.lookup k) s.tasks

theorem JobStep_none {q : MemoryQueue} {clk : Clock} {op : Op} {ans : Answer}
    {o' : Option MemoryJob} (h : JobStep q clk k op ans none o')
    (hname : (Event.mk op clk ans).pushedName k = none) : o' = none := by
  cases h with
  | kept | closed => rfl
  | pushed hk _ _ => simp [Event.pushedName, hk] at hname
  | pushedUnique hk _ _ _ => simp [Event.pushedName, hk] at hname

theorem pushedName_of_leases (h : e.op.leases = some d) : e.pushedName k = none := by
  obtain ⟨op, clk, ans⟩ := e
  cases op <;> simp_all [Op.leases, Op.settles, Event.pushedName]

/-- The operations of a worker do not bring a job that was never pushed into the queue. -/
theorem lookup_none_step {s : Clocked} (h : Step s e s') (hk : s.queue.jobs.lookup k = none)
    (hname : e.pushedName k = none) : s'.queue.jobs.lookup k = none := by
  have hstep := h.jobStep k
  rw [hk] at hstep
  exact JobStep_none hstep hname

theorem Budgeted.admin_step (hs : Tasks s) (hb : Budgeted reg k ls s) (h : Step s.clocked e s')
    (hop : e.op.isAdmin = true) : Budgeted reg k (ls ++ [.admin e]) ⟨s', s.tasks⟩ := by
  unfold Budgeted at hb ⊢
  rw [pushedName_append_singleton, runs_append_singleton]
  simp only [nameAfter, countRun]
  cases hname : e.pushedName k with
  | some name =>
    intro o ho
    exact .pushed (reg.one_le_maxAttempts ho) (h.jobStep k) hname
  | none =>
    rw [Option.none_or]
    cases hprev : pushedName k ls with
    | none =>
      rw [hprev] at hb
      refine ⟨lookup_none_step h hb.1 hname, ?_⟩
      simp [hb.2]
    | some name =>
      rw [hprev] at hb
      intro o ho
      exact (hb o ho).admin (reg.one_le_maxAttempts ho) (hs.receipts.unfailed k) (h.jobStep k) hop
        hname

/-- A step of a worker: the job last pushed as `k` is the same. -/
theorem Budgeted.next {s' : Workers} (hb : Budgeted reg k ls s)
    (hname : nameAfter k (pushedName k ls) l = pushedName k ls)
    (hnone : s.clocked.queue.jobs.lookup k = none →
      s'.clocked.queue.jobs.lookup k = none ∧ countRun reg k [] l = [])
    (hsome : ∀ name o, reg.byName name = some o →
      Budget o.maxAttempts name k (runs reg k ls) (s.clocked.queue.jobs.lookup k) s.tasks →
      Budget o.maxAttempts name k (countRun reg k (runs reg k ls) l)
        (s'.clocked.queue.jobs.lookup k) s'.tasks) :
    Budgeted reg k (ls ++ [l]) s' := by
  unfold Budgeted at hb ⊢
  rw [pushedName_append_singleton, runs_append_singleton, hname]
  cases hprev : pushedName k ls with
  | none =>
    rw [hprev] at hb
    rw [hb.2]
    exact hnone hb.1
  | some name =>
    rw [hprev] at hb
    exact fun o ho => hsome name o ho (hb o ho)

/-- A `Reserve` changes the job it hands out only. -/
theorem lookup_of_reserve {s : Clocked} (h : Step s e s') (hop : e.op.draws ≠ [])
    (hd : ∀ d, e.delivered = some d → d.key ≠ k) :
    s'.queue.jobs.lookup k = s.queue.jobs.lookup k := by
  obtain ⟨op, clk, ans⟩ := e
  have hstep := h.jobStep k
  generalize s.queue.jobs.lookup k = o at hstep ⊢
  generalize s'.queue.jobs.lookup k = o' at hstep ⊢
  dsimp only at hstep hop
  cases hstep with
  | kept _ => rfl
  | reserved hk _ _ _ => exact absurd (deliver_key hk _) (hd _ rfl)
  | _ => simp [Op.draws] at hop

/-- A task of another job does not count. -/
theorem Budget.cons {M : ℤ} {name : String} {L : List String}
    {o : Option MemoryJob} {tasks : List Task} (hb : Budget M name k L o tasks)
    (ht : t.delivery.key ≠ k) : Budget M name k L o (t :: tasks) := by
  refine ⟨hb.within, hb.named, hb.counted, hb.waiting, ?_⟩
  intro t' ht' hk
  rcases mem_cons.1 ht' with rfl | ht'
  · exact absurd hk ht
  · exact hb.leased t' ht' hk

theorem Tasks.fresh (hs : Tasks s) (h : Step s.clocked e s') (hd : e.delivered = some d) :
    ∀ t ∈ s.tasks, t.delivery.receipt ≠ d.receipt := by
  intro t ht heq
  have hfresh := h.fresh d.receipt (by rw [draws_of_delivered h hd]; exact mem_cons_self)
  exact hfresh (heq ▸ hs.drawn t ht)

theorem Budgeted.reserve_step {stopping : Bool} (hs : Tasks s) (hb : Budgeted reg k ls s)
    (h : Step s.clocked e s') (hd : e.delivered = some d) :
    Budgeted reg k (ls ++ [.reserve e stopping now])
      ⟨s', ⟨d, .of (afterReserve (reg.options d.envelope.name) stopping now d)⟩ :: s.tasks⟩ := by
  obtain ⟨j, queues, lease, hop, -, hj, hav, hdeliver, hj'⟩ := reserved_of_delivered h hd
  have hdraws : e.op.draws ≠ [] := by simp [hop, Op.draws]
  by_cases hk : d.key = k
  · subst hk
    refine hb.next rfl (by simp [hj]) ?_
    intro name o ho hbud
    rw [hj] at hbud
    simp only [countRun, hd, true_and, hj']
    have hf := MemoryJob.failure_of_available hav
    have hM : (reg.options name).maxAttempts = o.maxAttempts := by
      rw [reg.options_of_byName ho]
    exact hbud.reserve hM hf hdeliver (hs.fresh h hd)
  · have hkeep : s'.queue.jobs.lookup k = s.clocked.queue.jobs.lookup k := by
      refine lookup_of_reserve h hdraws ?_
      intro d' hd'
      rw [hd] at hd'
      cases hd'
      exact hk
    refine hb.next rfl ?_ ?_
    · intro hnone
      simp [hkeep, hnone, countRun, hd, hk]
    · intro name o ho hbud
      simp only [hkeep, countRun, hd, hk, false_and, if_false]
      exact hbud.cons hk

theorem Budgeted.reserveLost_step (hs : Tasks s) (hb : Budgeted reg k ls s)
    (h : Step s.clocked e s') (hop : e.op.draws ≠ []) :
    Budgeted reg k (ls ++ [.reserveLost e]) ⟨s', s.tasks⟩ := by
  by_cases hk : ∃ d, e.delivered = some d ∧ d.key = k
  · obtain ⟨d, hd, rfl⟩ := hk
    obtain ⟨j, queues, lease, -, -, hj, -, -, hj'⟩ := reserved_of_delivered h hd
    refine hb.next rfl (by simp [hj]) ?_
    intro name o ho hbud
    rw [hj] at hbud
    simp only [countRun, hj']
    exact hbud.reserveLost (hs.fresh h hd)
  · have hkeep : s'.queue.jobs.lookup k = s.clocked.queue.jobs.lookup k :=
      lookup_of_reserve h hop fun d hd hkey => hk ⟨d, hd, hkey⟩
    refine hb.next rfl ?_ ?_
    · exact fun hnone => ⟨by rw [hkeep]; exact hnone, rfl⟩
    · intro name o ho hbud
      simpa only [hkeep, countRun] using hbud

theorem Budgeted.settle_step {c : Call} (hs : Tasks s) (hb : Budgeted reg k ls s)
    (h : Step s.clocked e s') (ht : ⟨d, .settling c⟩ ∈ s.tasks) (hop : e.op = c.op) :
    Budgeted reg k (ls ++ [.settle c e]) ⟨s', s.tasks.erase ⟨d, .settling c⟩⟩ := by
  have hset : c.op.settles = some d := hs.settles _ ht c rfl
  have hleases : e.op.leases = some d := by rw [hop]; exact leases_of_settles hset
  refine hb.next rfl ?_ ?_
  · intro hnone
    exact ⟨lookup_none_step h hnone (pushedName_of_leases hleases), by simp [countRun, hset]⟩
  · intro name o ho hbud
    have hstep := h.jobStep k
    rw [hop] at hstep
    have := hbud.settle (t := ⟨d, .settling c⟩) (hs.receipts.unfailed k) ht rfl hset hstep
    simpa only [countRun, hset] using this

theorem Budgeted.step {s' : Workers}
    (hs : Tasks s) (hb : Budgeted reg k ls s) (h : WorkStep reg s l s') :
    Budgeted reg k (ls ++ [l]) s' := by
  cases h with
  | admin h hop => exact hb.admin_step hs h hop
  | @idle e s' stopping now h hop hd =>
    have hkeep : s'.queue.jobs.lookup k = s.clocked.queue.jobs.lookup k :=
      lookup_of_reserve h hop (by simp [hd])
    refine hb.next rfl ?_ ?_
    · exact fun hnone => ⟨by rw [hkeep]; exact hnone, by simp [countRun, hd]⟩
    · intro name o ho hbud
      simpa only [hkeep, countRun, hd] using hbud
  | reserve h hd => exact hb.reserve_step hs h hd
  | reserveLost h hop => exact hb.reserveLost_step hs h hop
  | @renew e s' d lease h _ hop =>
    refine hb.next rfl ?_ ?_
    · intro hnone
      refine ⟨lookup_none_step h hnone (pushedName_of_leases (d := d) ?_), rfl⟩
      rw [hop]
      rfl
    · intro name o ho hbud
      have hstep := h.jobStep k
      rw [hop] at hstep
      exact hbud.renew hstep
  | outcome ht hc =>
    refine hb.next rfl (fun hnone => ⟨hnone, rfl⟩) ?_
    intro name o ho hbud
    have hM : (reg.options name).maxAttempts = o.maxAttempts := by
      rw [reg.options_of_byName ho]
    exact hbud.outcome hM (hs.receipts.unfailed k) ht hc
  | abandon ht _ =>
    refine hb.next rfl (fun hnone => ⟨hnone, rfl⟩) ?_
    exact fun name o ho hbud => hbud.mono erase_subset
  | settle h ht hop => exact hb.settle_step hs h ht hop
  | gone ht =>
    refine hb.next rfl (fun hnone => ⟨hnone, rfl⟩) ?_
    exact fun name o ho hbud => hbud.mono erase_subset

theorem budgeted_run {t : ℤ} (h : Run (WorkStep reg) (Workers.init t) ls s) (k : MemoryKey) :
    Budgeted reg k ls s := by
  refine Run.history_induction (I := Budgeted reg k) ?_ ?_ h
  · simp [Budgeted, pushedName, Workers.init, Clocked.init, MemoryQueue.empty]
  · intro ls s l s' hrun hstep hb
    exact hb.step (tasks_run hrun) hstep

/-! ## Failed at the last attempt -/

/-- The event is a call that puts the delivery with the receipt `r` back into the queue. -/
def WorkEvent.Releases (l : WorkEvent) (r : String) : Prop :=
  ∃ c e d at_, l = .settle c e ∧ d.receipt = r ∧ (c.op = .release d at_ ∨ c.op = .postpone d at_)

/-- A receipt was drawn, and the tasks that have it are as `P` says, which no running one is: this
stays so. -/
theorem marked_step {s' : Workers} {P : Task → Prop} (hrunning : ∀ d, ¬ P ⟨d, .running⟩)
    (hr : r ∈ s.clocked.drawn ∧ ∀ t ∈ s.tasks, t.delivery.receipt = r → P t)
    (h : WorkStep reg s l s') :
    r ∈ s'.clocked.drawn ∧ ∀ t ∈ s'.tasks, t.delivery.receipt = r → P t := by
  have hdrawn : ∀ {e : Event} {s' : Clocked}, Step s.clocked e s' → r ∈ s'.drawn := by
    intro e s' h
    rw [h.drawn]
    exact mem_append_right _ hr.1
  have herase : ∀ t t', t' ∈ s.tasks.erase t → t'.delivery.receipt = r → P t' :=
    fun t t' ht' => hr.2 t' (mem_of_mem_erase ht')
  cases h with
  | admin h _ => exact ⟨hdrawn h, hr.2⟩
  | idle h _ _ => exact ⟨hdrawn h, hr.2⟩
  | @reserve e s' stopping now d h hd =>
    refine ⟨hdrawn h, ?_⟩
    intro t ht heq
    rcases mem_cons.1 ht with rfl | ht
    · refine absurd hr.1 (h.fresh r ?_)
      rw [draws_of_delivered h hd, ← heq]
      exact mem_cons_self
    · exact hr.2 t ht heq
  | reserveLost h _ => exact ⟨hdrawn h, hr.2⟩
  | renew h _ _ => exact ⟨hdrawn h, hr.2⟩
  | @outcome d _ _ _ _ c ht _ =>
    refine ⟨hr.1, ?_⟩
    intro t ht' heq
    rcases mem_cons.1 ht' with rfl | ht'
    · exact absurd (hr.2 _ ht heq) (hrunning d)
    · exact herase _ t ht' heq
  | abandon _ _ => exact ⟨hr.1, herase _⟩
  | settle h _ _ => exact ⟨hdrawn h, herase _⟩
  | gone _ => exact ⟨hr.1, herase _⟩

/-- The receipt `r` was drawn, and no task will release it. -/
def GivenUp (r : String) (s : Workers) : Prop :=
  r ∈ s.clocked.drawn ∧ ∀ t ∈ s.tasks, t.delivery.receipt = r →
    ∃ c f, t.phase = .settling c ∧ c.op = .bury t.delivery f

theorem GivenUp.step {s' : Workers} (hs : Tasks s) (hg : GivenUp r s) (h : WorkStep reg s l s') :
    GivenUp r s' ∧ ¬ l.Releases r := by
  refine ⟨marked_step ?_ hg h, ?_⟩
  · rintro d ⟨c, f, hphase, -⟩
    cases hphase
  rintro ⟨c, e, d, at_, rfl, hr, hrel⟩
  cases h with
  | @settle _ s' d' _ h ht hop =>
    -- the call settles its own delivery, and that one is to be buried
    have hset := hs.settles _ ht c rfl
    have hd : d = d' := by
      rcases hrel with hrel | hrel <;> simpa [hrel, Op.settles] using hset
    subst hd
    obtain ⟨c', f, hphase, hbury⟩ := hg.2 _ ht hr
    cases hphase
    rcases hrel with hrel | hrel <;> rw [hrel] at hbury <;> cases hbury

/-- The receipt `r` was drawn, and no task has it. -/
def Spent (r : String) (s : Workers) : Prop :=
  r ∈ s.clocked.drawn ∧ ∀ t ∈ s.tasks, t.delivery.receipt ≠ r

theorem Spent.step {s' : Workers} (hr : Spent r s) (h : WorkStep reg s l s') : Spent r s' :=
  marked_step (P := fun _ => False) (by simp) hr h

/-- A delivery a worker has settled is no task any more. -/
theorem spent_of_releases {s' : Workers} (hs : Tasks s)
    (h : WorkStep reg s l s') (hl : l.Releases r) : Spent r s' := by
  obtain ⟨c, e, d, at_, rfl, rfl, hrel⟩ := hl
  cases h with
  | @settle _ s' d' _ h ht hop =>
    have hset := hs.settles _ ht c rfl
    have hd : d' = d := by
      rcases hrel with hrel | hrel <;> simpa [hrel, Op.settles] using hset.symm
    subst hd
    refine ⟨?_, ?_⟩
    · rw [h.drawn]
      exact mem_append_right _ (hs.drawn _ ht)
    · exact hs.others ht

/-- While a delivery is a task, no call has put it back into the queue. -/
theorem not_released_of_task {t₀ : ℤ} (h : Run (WorkStep reg) (Workers.init t₀) ls s)
    (ht : t ∈ s.tasks) : ∀ l ∈ ls, ¬ l.Releases t.delivery.receipt := by
  have hspent : ∀ l ∈ ls, ∀ r, l.Releases r → Spent r s := by
    refine Run.history_induction
      (I := fun ls s => ∀ l ∈ ls, ∀ r, WorkEvent.Releases l r → Spent r s) (by simp) ?_ h
    intro ls s l s' hrun hstep ih l' hl' r hrel
    rcases mem_append.1 hl' with hl' | hl'
    · exact (ih l' hl' r hrel).step hstep
    · rw [mem_singleton.1 hl'] at hrel
      exact spent_of_releases (tasks_run hrun) hstep hrel
  exact fun l hl hrel => (hspent l hl _ hrel).2 t ht rfl

/-- The handler failed: neither canceled by its worker, nor waiting on another run. -/
def RunErr.Failed (err : RunErr) (canceled : Bool) : Prop :=
  canceled = false ∧ (err.inProgress = false ∨ err.isPermanent = true)

theorem givenUp_of_outcome {s' : Workers} {lost canceled : Bool} {err : RunErr} (hs : Tasks s)
    (hfailed : err.Failed canceled)
    (hlast : (reg.options d.envelope.name).maxAttempts ≤ d.envelope.attempt)
    (h : WorkStep reg s (.outcome d lost canceled (some err) now) s') : GivenUp d.receipt s' := by
  cases h with
  | outcome ht hc =>
    refine ⟨hs.drawn _ ht, ?_⟩
    intro t ht' heq
    rcases mem_cons.1 ht' with rfl | ht'
    · obtain ⟨rfl, hkind⟩ := hfailed
      unfold afterRun at hc
      dsimp only at hc
      split at hc
      · cases hc
      rw [if_neg (by simp), if_neg (by rcases hkind with hk | hk <;> simp [hk]),
        if_pos (.inr hlast)] at hc
      cases hc
      exact ⟨_, _, rfl, rfl⟩
    · exact absurd heq (hs.others ht t ht')
  | abandon ht _ =>
    exact ⟨hs.drawn _ ht, fun t ht' heq => absurd heq (hs.others ht t ht')⟩

/-- **The attempt budget.** In every run of any number of workers of one registry on a queue:

* since a registered job was last pushed or retried, its handler was started at most `MaxAttempts`
  times, not counting the runs that ended in a successful interruption or postponement;
* a delivery whose attempt has reached `MaxAttempts` and whose handler failed is put back into
  the queue neither before nor after. -/
theorem attempt_budget (reg : Registry) (t : ℤ) :
    (∀ ls s k name o, Run (WorkStep reg) (Workers.init t) ls s → pushedName k ls = some name →
      reg.byName name = some o → (runs reg k ls).length ≤ o.maxAttempts) ∧
    (∀ ls₁ ls₂ s d lost canceled err now,
      Run (WorkStep reg) (Workers.init t)
        (ls₁ ++ [.outcome d lost canceled (some err) now] ++ ls₂) s →
      err.Failed canceled → (reg.options d.envelope.name).maxAttempts ≤ d.envelope.attempt →
      ∀ l ∈ ls₁ ++ [.outcome d lost canceled (some err) now] ++ ls₂, ¬ l.Releases d.receipt) := by
  refine ⟨?_, ?_⟩
  · intro ls s k name o h hname ho
    have hb := budgeted_run h k
    unfold Budgeted at hb
    rw [hname] at hb
    exact (hb o ho).within
  · intro ls₁ ls₂ s d lost canceled err now h hfailed hlast l hl
    obtain ⟨s₂, h₂, hrest⟩ := h.append_inv
    obtain ⟨s₁, h₁, hstep⟩ := h₂.snoc_inv
    have hgiven := givenUp_of_outcome (tasks_run h₁) hfailed hlast hstep
    rcases mem_append.1 hl with hl | hl
    · rcases mem_append.1 hl with hl | hl
      · have ht : (⟨d, .running⟩ : Task) ∈ s₁.tasks := by
          cases hstep with
          | outcome ht _ => exact ht
          | abandon ht _ => exact ht
        exact not_released_of_task h₁ ht l hl
      · rw [mem_singleton.1 hl]
        rintro ⟨c, e, _, _, heq, _⟩
        cases heq
    · refine hrest.events (I := fun s => Tasks s ∧ GivenUp d.receipt s)
        (Q := fun l => ¬ WorkEvent.Releases l d.receipt) ?_ ⟨tasks_run h₂, hgiven⟩ l hl
      rintro s l s' hstep ⟨hs, hg⟩
      obtain ⟨hg', hno⟩ := hg.step hs hstep
      exact ⟨⟨hs.step hstep, hg'⟩, hno⟩

/-! ### One attempt

A job whose policy allows one attempt, run once and failed. -/

/-- A registry with one job, `mail`, that runs once. -/
def onceRegistry : Registry where
  defaults := .zero
  byName name := if name = "mail" then some ((⟨1, 0, none⟩ : Options).resolve .zero) else none
  registered := by
    intro name o h
    split at h
    · cases h
      exact ⟨some ⟨1, 0, none⟩, rfl⟩
    · cases h

def mailErr : RunErr := ⟨.handler, false, false, "smtp: connection refused"⟩

/-- The run: pushed at 1, handed out at 2, failed, and set aside at 4. -/
def failedOnce : List WorkEvent :=
  [.admin pushed, .reserve handedOut false 2] ++
    [.outcome lapsedDelivery false false (some mailErr) 3] ++
    [.settle (giveUp lapsedDelivery mailErr 3)
      ⟨(giveUp lapsedDelivery mailErr 3).op, .const 4, .ok⟩]

theorem attempt_budget_failedOnce :
    (∃ s, Run (WorkStep onceRegistry) (Workers.init 0) failedOnce s) ∧
      ((runs onceRegistry ⟨"default", "7"⟩ failedOnce).length : ℤ) ≤ 1 ∧
      ∀ l ∈ failedOnce, ¬ l.Releases "r1" := by
  have hrun : Run (WorkStep onceRegistry) (Workers.init 0) failedOnce _ :=
    .cons (.admin (Clocked.step_after (by decide) (by decide)) rfl)
      (.cons (.reserve (Clocked.step_after (by decide) (by decide)) rfl)
        (.cons (.outcome (c := giveUp lapsedDelivery mailErr 3) mem_cons_self rfl)
          (.cons (.settle (d := lapsedDelivery) (Clocked.step_after (by decide) (by decide))
            mem_cons_self rfl) (.nil _))))
  obtain ⟨hbudget, hgiven⟩ := attempt_budget onceRegistry 0
  exact ⟨⟨_, hrun⟩, hbudget _ _ ⟨"default", "7"⟩ "mail" _ hrun rfl rfl,
    hgiven _ _ _ _ _ _ _ _ hrun ⟨rfl, .inl rfl⟩ (by decide)⟩

end Gombit.Jobs
