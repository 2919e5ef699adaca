import Gombit.Jobs.Transitions

/-!
# Leased delivery

What a lease promises, over whole histories of a `MemoryQueue`. A `Reserve` hands a job out under
a receipt `r`; from then on the job is the receipt's (`Holds`) until another `Reserve` takes it or
`r` settles it, and after that the receipt is dead for ever (`Dead`).

* `Holds.step`: the two ways a held lease goes on.
* `Dead.step`: a dead receipt stays dead.
* `Leased`, `leased_history`: where a lease stands, read off the history since it was handed out.
* `leased_delivery`: the guarantees the callers of the queue rely on.
-/

namespace Gombit.Jobs

open MemoryQueue List

/-! ## Reading a history -/

/-- The delivery a `Reserve` handed out. -/
def Event.delivered (e : Event) : Option Delivery :=
  match e.op, e.ans with
  | .reserve _ _ _, .delivery d => some d
  | _, _ => none

variable {e : Event} {d : Delivery}

theorem delivered_eq_some :
    e.delivered = some d ↔
      ∃ queues lease receipt, e.op = .reserve queues lease receipt ∧ e.ans = .delivery d := by
  obtain ⟨op, clk, ans⟩ := e
  cases op <;> cases ans <;> simp [Event.delivered]

/-- `Ack`, `Release`, `Postpone` or `Bury` succeeded with the receipt `r`. -/
def Event.Settles (e : Event) (r : String) : Prop :=
  e.ans = .ok ∧ ∃ d, e.op.settles = some d ∧ d.receipt = r

/-- The deadline the operation set for the lease `r`. -/
def Event.deadline (e : Event) (r : String) : Option ℤ :=
  match e.op, e.ans with
  | .reserve _ lease _, .delivery d => if d.receipt = r then some (e.clk.fst + lease) else none
  | .extend d lease, .ok => if d.receipt = r then some (e.clk.fst + lease) else none
  | _, _ => none

/-- The last deadline set for the lease `r`. -/
def lastDeadline (r : String) (es : List Event) : Option ℤ :=
  es.foldl (fun D e => (e.deadline r).or D) none

@[simp] theorem lastDeadline_append_singleton (r : String) (es : List Event) (e : Event) :
    lastDeadline r (es ++ [e]) = (e.deadline r).or (lastDeadline r es) := by
  simp [lastDeadline]

/-- The delivery whose lease an operation needs: the settling operations, and `Extend`. -/
def Op.leases : Op → Option Delivery
  | .extend d _ => some d
  | op => op.settles

variable {op : Op}

theorem leases_of_settles (h : op.settles = some d) : op.leases = some d := by
  cases op <;> simp_all [Op.leases, Op.settles]

variable {o : Option MemoryJob}

theorem touches_of_leases (h : op.leases = some d) : Touches d.key o op .ok := by
  cases op <;> simp_all [Op.leases, Op.settles, Touches, target]

theorem touches_of_delivered (h : e.delivered = some d) : Touches d.key o e.op e.ans := by
  obtain ⟨_, _, _, hop, hans⟩ := delivered_eq_some.1 h
  rw [hop, hans]
  rfl

/-! ## Receipts name leases -/

/-- Every lease is under a receipt that was drawn, no two leases are under one receipt, and a
leased job has not failed. -/
structure Receipts (s : Clocked) : Prop where
  drawn : ∀ k j, s.queue.jobs.lookup k = some j → j.reserved = true → j.receipt ∈ s.drawn
  unique : ∀ k j k' j', s.queue.jobs.lookup k = some j → s.queue.jobs.lookup k' = some j' →
    j.reserved = true → j'.reserved = true → j.receipt = j'.receipt → k = k'
  unfailed : ∀ k j, s.queue.jobs.lookup k = some j → j.reserved = true → j.failure = none

variable {q : MemoryQueue} {k : MemoryKey}

/-- A leased job was leased before under the same receipt, or has just been handed out. -/
theorem MemoryQueue.JobStep.reserved_after {clk : Clock} {ans : Answer} {j' : MemoryJob}
    (h : JobStep q clk k op ans o (some j')) (hr : j'.reserved = true) :
    (∃ j, o = some j ∧ j.reserved = true ∧ j.receipt = j'.receipt ∧
        (j'.failure = j.failure ∨ j'.failure = none)) ∨
      ∃ d, (Event.mk op clk ans).delivered = some d ∧ d.key = k ∧
        op.draws = [j'.receipt] ∧ j'.failure = none := by
  cases h with
  | kept _ => exact .inl ⟨j', rfl, hr, rfl, .inl rfl⟩
  | pushed | pushedUnique => simp [newJob] at hr
  | @reserved _ _ _ j hk _ _ ha =>
    have hf : j.failure = none := MemoryJob.failure_of_available ha
    exact .inr ⟨_, rfl, deliver_key hk _, rfl, hf⟩
  | released | postponed => simp [releaseJob] at hr
  | @extended _ _ j _ hd _ => exact .inl ⟨j, rfl, hd.1, rfl, .inl rfl⟩
  | buried _ _ => simp [buryJob] at hr
  | @retried _ _ j _ _ => exact .inl ⟨j, rfl, hr, rfl, .inr rfl⟩

theorem Receipts.step {s s' : Clocked} (h : Step s e s') (hs : Receipts s) :
    Receipts s' := by
  -- a lease after the step is an old one, or the one just handed out under a fresh receipt
  have hafter : ∀ k j', s'.queue.jobs.lookup k = some j' → j'.reserved = true →
      (∃ j, s.queue.jobs.lookup k = some j ∧ j.reserved = true ∧ j.receipt = j'.receipt ∧
        j'.failure = none) ∨
      ∃ d, e.delivered = some d ∧ d.key = k ∧ e.op.draws = [j'.receipt] ∧ j'.failure = none := by
    intro k j' hj' hr
    have hstep := h.jobStep k
    rw [hj'] at hstep
    rcases hstep.reserved_after hr with ⟨j, hj, hjr, hjeq, hf⟩ | hnew
    · refine .inl ⟨j, hj, hjr, hjeq, ?_⟩
      rcases hf with hf | hf
      · rw [hf, hs.unfailed k j hj hjr]
      · exact hf
    · exact .inr hnew
  refine ⟨?_, ?_, ?_⟩
  · intro k j' hj' hr
    rw [h.drawn]
    rcases hafter k j' hj' hr with ⟨j, hj, hjr, hjeq, -⟩ | ⟨d, -, -, hdraw, -⟩
    · exact mem_append_right _ (hjeq ▸ hs.drawn k j hj hjr)
    · rw [hdraw]
      exact mem_append_left _ mem_cons_self
  · intro k j k' j' hj hj' hr hr' heq
    rcases hafter k j hj hr with ⟨i, hi, hir, hieq, -⟩ | ⟨d, hd, hdk, hdraw, -⟩ <;>
      rcases hafter k' j' hj' hr' with ⟨i', hi', hir', hieq', -⟩ | ⟨d', hd', hdk', hdraw', -⟩
    · exact hs.unique k i k' i' hi hi' hir hir' (by rw [hieq, heq, hieq'])
    · have hfresh := h.fresh j'.receipt (by rw [hdraw']; exact mem_cons_self)
      rw [← heq, ← hieq] at hfresh
      exact absurd (hs.drawn k i hi hir) hfresh
    · have hfresh := h.fresh j.receipt (by rw [hdraw]; exact mem_cons_self)
      rw [heq, ← hieq'] at hfresh
      exact absurd (hs.drawn k' i' hi' hir') hfresh
    · rw [hd] at hd'
      cases hd'
      rw [← hdk, ← hdk']
  · intro k j' hj' hr
    rcases hafter k j' hj' hr with ⟨_, _, _, _, hf⟩ | ⟨_, _, _, _, hf⟩ <;> exact hf

variable {es : List Event} {s : Clocked}

theorem receipts_history {t : ℤ} (h : History t es s) : Receipts s := by
  refine h.preserves (I := Receipts) (fun _ _ _ => Receipts.step) ⟨?_, ?_, ?_⟩ <;>
    simp [Clocked.init, MemoryQueue.empty]

/-! ## A lease, held or dead -/

/-- The job `k` is leased under `r`, until `D`. -/
def Holds (k : MemoryKey) (r : String) (D : ℤ) (s : Clocked) : Prop :=
  ∃ j, s.queue.jobs.lookup k = some j ∧ j.reserved = true ∧ j.receipt = r ∧ j.leaseDeadline = D

/-- The receipt `r` was drawn, and no lease is under it. -/
def Dead (r : String) (s : Clocked) : Prop :=
  r ∈ s.drawn ∧ ∀ k j, s.queue.jobs.lookup k = some j → j.reserved = true → j.receipt ≠ r

theorem Dead.step {r : String} {s' : Clocked} (h : Step s e s') (hd : Dead r s) :
    Dead r s' := by
  refine ⟨by rw [h.drawn]; exact mem_append_right _ hd.1, ?_⟩
  rintro k j' hj' hr rfl
  have hstep := h.jobStep k
  rw [hj'] at hstep
  rcases hstep.reserved_after hr with ⟨j, hj, hjr, hjeq, -⟩ | ⟨d, -, -, hdraw, -⟩
  · exact hd.2 k j hj hjr hjeq
  · exact h.fresh j'.receipt (by rw [hdraw]; exact mem_cons_self) hd.1

variable {r : String}

/-- A dead receipt holds no lease of the queue. -/
theorem Dead.leased (hd : Dead r s) (hr : d.receipt = r) :
    s.queue.leased d =
      .error (if s.queue.closed then .closed else .leaseLost d.envelope.id) := by
  cases hl : s.queue.leased d with
  | error err => rw [leased_eq_error hl]
  | ok j =>
    obtain ⟨hj, hres, -, heq⟩ := leased_eq_ok hl
    exact absurd (heq.trans hr) (hd.2 _ j hj hres)

/-- An operation that needs a lease it does not have changes nothing and fails with the error of
`leased`, unless it is an `Extend` by no time at all. -/
theorem step_of_leased_error (clk : Clock) {err : Err} (hop : op.leases = some d)
    (hl : q.leased d = .error err) :
    (q.step op clk).2 = q ∧
      ((q.step op clk).1 = .error err ∨
        ∃ lease, op = .extend d lease ∧ lease ≤ 0 ∧
          (q.step op clk).1 = .error (.leaseNotPositive lease)) := by
  cases op <;> simp only [Op.leases, Op.settles, Option.some.injEq, reduceCtorEq] at hop <;>
    subst hop
  case extend lease =>
    simp only [MemoryQueue.step, extend, hl]
    split
    · rename_i hlease
      exact ⟨rfl, .inr ⟨lease, rfl, hlease, rfl⟩⟩
    · exact ⟨rfl, .inl rfl⟩
  all_goals simp [MemoryQueue.step, MemoryQueue.ack, release, bury, hl]

variable {s' : Clocked}

theorem held_of_leases_ok (h : Step s e s') (hop : e.op.leases = some d) (hok : e.ans = .ok) :
    ∃ j, s.queue.jobs.lookup d.key = some j ∧ HeldBy j d := by
  cases hl : s.queue.leased d with
  | ok j =>
    obtain ⟨hj, hheld⟩ := leased_eq_ok hl
    exact ⟨j, hj, hheld⟩
  | error err =>
    rw [h.ans] at hok
    rcases (step_of_leased_error e.clk hop hl).2 with herr | ⟨_, _, _, herr⟩ <;>
      simp [herr] at hok

/-- What a `Reserve` that hands out `d` did. -/
theorem reserved_of_delivered (h : Step s e s') (hd : e.delivered = some d) :
    ∃ j queues lease, e.op = .reserve queues lease d.receipt ∧ 0 < lease ∧
      s.queue.jobs.lookup d.key = some j ∧ j.available e.clk.fst = true ∧
      d = deliver j d.queue d.receipt ∧
      s'.queue.jobs.lookup d.key = some (leaseJob j e.clk.fst lease d.receipt) := by
  obtain ⟨queues, lease, receipt, hop, hans⟩ := delivered_eq_some.1 hd
  obtain ⟨op, clk, ans⟩ := e
  dsimp only at hop hans
  subst hop hans
  have hstep := h.jobStep d.key
  generalize hb : s.queue.jobs.lookup d.key = o at hstep ⊢
  generalize ha : s'.queue.jobs.lookup d.key = o' at hstep ⊢
  dsimp only at hstep
  generalize hans : Answer.delivery d = ans at hstep
  cases hstep with
  | kept hn =>
    subst hans
    exact absurd rfl hn
  | @reserved _ _ _ j hk hl hq hav =>
    have hd : d = deliver j d.queue receipt := Answer.delivery.inj hans
    have hr : d.receipt = receipt := congrArg Delivery.receipt hd
    rw [hr]
    exact ⟨j, queues, lease, rfl, hl, rfl, hav, hd, rfl⟩

variable {D : ℤ}

/-- Where a lease that ends is dead: no lease of the next queue is under its receipt. -/
theorem Holds.dead (hs : Receipts s) (h : Step s e s') (hh : Holds k r D s)
    (hk : ∀ j', s'.queue.jobs.lookup k = some j' → j'.reserved = true → j'.receipt ≠ r) :
    Dead r s' := by
  obtain ⟨j, hj, hres, rfl, -⟩ := hh
  have hdrawn := hs.drawn k j hj hres
  refine ⟨by rw [h.drawn]; exact mem_append_right _ hdrawn, ?_⟩
  intro k' j' hj' hr' heq
  have hstep := h.jobStep k'
  rw [hj'] at hstep
  rcases hstep.reserved_after hr' with ⟨i, hi, hir, hieq, -⟩ | ⟨d, -, -, hdraw, -⟩
  · obtain rfl := hs.unique k' i k j hi hj hir hres (hieq.trans heq)
    exact hk j' hj' hr' heq
  · exact h.fresh j'.receipt (by rw [hdraw]; exact mem_cons_self) (heq ▸ hdrawn)

/-- A drawn receipt gets a new deadline only from an `Extend` under it. -/
theorem extend_of_deadline (h : Step s e s') (hr : r ∈ s.drawn) (hD : e.deadline r = some D) :
    ∃ d lease, e.op = .extend d lease ∧ e.ans = .ok ∧ d.receipt = r ∧ D = e.clk.fst + lease := by
  unfold Event.deadline at hD
  split at hD
  · rename_i queues lease receipt d hop hans
    split_ifs at hD
    rename_i hdr
    obtain ⟨j, queues', lease', hop', -⟩ := reserved_of_delivered h
      (delivered_eq_some.2 ⟨queues, lease, receipt, hop, hans⟩)
    refine absurd hr (h.fresh r ?_)
    rw [hop', hdr]
    exact mem_cons_self
  · rename_i d lease hop hans
    split_ifs at hD
    rename_i hdr
    exact ⟨d, lease, hop, hans, hdr, (Option.some.inj hD).symm⟩
  · cases hD

/-- **A held lease goes on, or ends.** It goes on when the operation neither settled it nor handed
its job out again; and it ends only by being settled, after its deadline, or with the queue. -/
theorem Holds.step (hs : Receipts s) (h : Step s e s') (hh : Holds k r D s) :
    (Holds k r ((e.deadline r).getD D) s' ∧ ¬ e.Settles r ∧
        ∀ d, e.delivered = some d → d.key ≠ k) ∨
      (Dead r s' ∧ e.deadline r = none ∧
        (e.Settles r ∨ D ≤ s'.now ∨ s'.queue.closed = true)) := by
  obtain ⟨op, clk, ans⟩ := e
  have hdead := hh.dead hs h
  obtain ⟨j, hj, hres, hr, hD⟩ := hh
  have hdrawn : r ∈ s.drawn := hr ▸ hs.drawn k j hj hres
  have hunfailed := hs.unfailed k j hj hres
  -- an operation that succeeds under `r` is about the job `k`
  have hmine : ∀ d, op.leases = some d → ans = .ok → d.receipt = r → d.key = k := by
    intro d hop hok hdr
    obtain ⟨i, hi, hheld⟩ := held_of_leases_ok h hop hok
    exact hs.unique d.key i k j hi hj hheld.1 hres (hheld.2.2.trans (hdr.trans hr.symm))
  have hstep := h.jobStep k
  rw [hj] at hstep
  generalize ho : s'.queue.jobs.lookup k = o at hstep hdead
  dsimp only at hstep
  cases hstep with
  | kept hn =>
    have hnone : (Event.mk op clk ans).deadline r = none := by
      by_contra hsome
      obtain ⟨D', hD'⟩ := Option.ne_none_iff_exists'.1 hsome
      obtain ⟨d, lease, rfl, rfl, hdr, -⟩ := extend_of_deadline h hdrawn hD'
      exact hn (congrArg some (hmine d rfl rfl hdr))
    refine .inl ⟨?_, ?_, ?_⟩
    · rw [hnone]
      exact ⟨j, ho, hres, hr, hD⟩
    · rintro ⟨hok, d, hd, hdr⟩
      have hlease := leases_of_settles hd
      have hkey := hmine d hlease hok hdr
      cases hok
      exact hn (hkey ▸ touches_of_leases hlease)
    · rintro d hd rfl
      exact hn (touches_of_delivered hd)
  | @reserved _ _ receipt _ hk hl hq ha =>
    have hfresh : receipt ≠ r := by
      rintro rfl
      exact h.fresh receipt mem_cons_self hdrawn
    have hpast : D ≤ clk.fst := by
      simpa [MemoryJob.available, hunfailed, hres, hD] using ha
    refine .inr ⟨hdead ?_, ?_, .inr (.inl ?_)⟩
    · rintro j' ⟨⟩ -
      exact hfresh
    · simp [Event.deadline, deliver, hfresh]
    · have hclock := h.clock
      rw [h.now]
      dsimp only at hclock ⊢
      omega
  | acked hk hd =>
    exact .inr ⟨hdead (by simp), rfl, .inl ⟨rfl, _, rfl, hd.2.2.symm.trans hr⟩⟩
  | released hk hd =>
    refine .inr ⟨hdead ?_, rfl, .inl ⟨rfl, _, rfl, hd.2.2.symm.trans hr⟩⟩
    rintro j' ⟨⟩ hres'
    simp [releaseJob] at hres'
  | postponed hk hd =>
    refine .inr ⟨hdead ?_, rfl, .inl ⟨rfl, _, rfl, hd.2.2.symm.trans hr⟩⟩
    rintro j' ⟨⟩ hres'
    simp [releaseJob] at hres'
  | extended hk hd hl =>
    refine .inl ⟨⟨_, ho, hres, hr, ?_⟩, ?_, ?_⟩
    · simp [Event.deadline, extendJob, hd.2.2.symm.trans hr]
    · rintro ⟨-, d', hd', -⟩
      simp [Op.settles] at hd'
    · simp [Event.delivered]
  | buried hk hd =>
    refine .inr ⟨hdead ?_, rfl, .inl ⟨rfl, _, rfl, hd.2.2.symm.trans hr⟩⟩
    rintro j' ⟨⟩ hres'
    simp [buryJob] at hres'
  | retried hk hf => simp [hunfailed] at hf
  | forgotten hk hf => simp [hunfailed] at hf
  | purged hp => simp [purges, hunfailed] at hp
  | closed =>
    refine .inr ⟨hdead (by simp), rfl, .inr (.inr ?_)⟩
    simp [h.closed]

/-! ## A lease since it was handed out -/

/-- Where the lease `r` of `k`, last set to end at `D`, stands after the operations `es`: held,
and then none of them settled it or handed its job out again; or dead, and then it was settled,
or its deadline has passed, or the queue is closed. -/
def Leased (k : MemoryKey) (r : String) (D : ℤ) (es : List Event) (s : Clocked) : Prop :=
  (Holds k r D s ∧ ∀ e ∈ es, ¬ e.Settles r ∧ ∀ d, e.delivered = some d → d.key ≠ k) ∨
    (Dead r s ∧ ((∃ e ∈ es, e.Settles r) ∨ D ≤ s.now ∨ s.queue.closed = true))

theorem Leased.step (hs : Receipts s) (h : Step s e s') (hl : Leased k r D es s) :
    Leased k r ((e.deadline r).getD D) (es ++ [e]) s' := by
  rcases hl with ⟨hh, hes⟩ | ⟨hd, hwhy⟩
  · rcases hh.step hs h with ⟨hh', hset, hdel⟩ | ⟨hd', hnone, hwhy⟩
    · refine .inl ⟨hh', ?_⟩
      intro e' he'
      rcases mem_append.1 he' with he' | he'
      · exact hes e' he'
      · rw [mem_singleton.1 he']
        exact ⟨hset, hdel⟩
    · refine .inr ⟨hd', ?_⟩
      rw [hnone]
      rcases hwhy with hset | hpast | hclosed
      · exact .inl ⟨e, by simp, hset⟩
      · exact .inr (.inl hpast)
      · exact .inr (.inr hclosed)
  · -- nothing sets a new deadline for a dead receipt
    have hnone : e.deadline r = none := by
      by_contra hsome
      obtain ⟨D', hD'⟩ := Option.ne_none_iff_exists'.1 hsome
      obtain ⟨d, lease, hop, hok, hdr, -⟩ := extend_of_deadline h hd.1 hD'
      obtain ⟨j, hj, hres, -, heq⟩ := held_of_leases_ok h (d := d) (by rw [hop]; rfl) hok
      exact hd.2 d.key j hj hres (heq.trans hdr)
    refine .inr ⟨hd.step h, ?_⟩
    rw [hnone]
    rcases hwhy with ⟨e', he', hset⟩ | hpast | hclosed
    · exact .inl ⟨e', mem_append_left _ he', hset⟩
    · exact .inr (.inl (hpast.trans h.now_le))
    · exact .inr (.inr (by simp [h.closed, hclosed]))

variable {s₀ : Clocked} {lease : ℤ}

/-- The lease of a delivery, after any operations that followed it. -/
theorem leased_history {t : ℤ} {pre : List Event} (hpre : History t (pre ++ [e]) s₀)
    (hd : e.delivered = some d) (h : Run Step s₀ es s) :
    ∃ D, lastDeadline d.receipt (e :: es) = some D ∧ Leased d.key d.receipt D es s := by
  refine Run.history_induction (I := fun es s => ∃ D, lastDeadline d.receipt (e :: es) = some D ∧
    Leased d.key d.receipt D es s) ?_ ?_ h
  · obtain ⟨s₁, -, hstep⟩ := hpre.snoc_inv
    obtain ⟨j, queues, lease, hop, -, -, -, -, hafter⟩ := reserved_of_delivered hstep hd
    obtain ⟨-, -, -, -, hans⟩ := delivered_eq_some.1 hd
    refine ⟨e.clk.fst + lease, ?_, .inl ⟨⟨_, hafter, rfl, rfl, rfl⟩, by simp⟩⟩
    simp [lastDeadline, Event.deadline, hop, hans]
  · rintro es s e' s' hrun hstep ⟨D, hD, hl⟩
    have hs : Receipts s := receipts_history (hpre.append hrun)
    refine ⟨_, ?_, hl.step hs hstep⟩
    rw [← cons_append, lastDeadline_append_singleton, hD]
    cases e'.deadline d.receipt <;> rfl

/-! ## A job in the queue -/

/-- The operation removed the failed job `k`: `ForgetFailed` named it, or `PurgeFailed` found it. -/
def Event.Discards (e : Event) (k : MemoryKey) : Prop :=
  (e.op = .forgetFailed k.queue k.id ∧ e.ans = .ok) ∨
    ∃ before n, e.op = .purgeFailed k.queue before ∧ e.ans = .purged n

variable {j : MemoryJob}

/-- **How a job leaves.** A job stays in the queue, with its envelope, unless it is acknowledged
under its current receipt, discarded while failed, or the queue is closed. -/
theorem stays_or_leaves (h : Step s e s') (hj : s.queue.jobs.lookup k = some j) :
    (∃ j', s'.queue.jobs.lookup k = some j' ∧ j'.env = j.env) ∨
      (∃ d, e.op = .ack d ∧ e.ans = .ok ∧ d.key = k ∧ HeldBy j d) ∨
      (j.failure.isSome = true ∧ e.Discards k) ∨ e.op = .close := by
  obtain ⟨op, clk, ans⟩ := e
  have hkey := s.queue.keyed k j hj
  have hstep := h.jobStep k
  rw [hj] at hstep
  generalize s'.queue.jobs.lookup k = o at hstep ⊢
  dsimp only at hstep ⊢
  cases hstep with
  | kept _ => exact .inl ⟨j, rfl, rfl⟩
  | reserved _ _ _ _ => exact .inl ⟨_, rfl, rfl⟩
  | @acked d _ hk hd => exact .inr (.inl ⟨d, rfl, rfl, hk.symm, hd⟩)
  | released _ _ => exact .inl ⟨_, rfl, rfl⟩
  | postponed _ _ => exact .inl ⟨_, rfl, rfl⟩
  | extended _ _ _ => exact .inl ⟨_, rfl, rfl⟩
  | buried _ _ => exact .inl ⟨_, rfl, rfl⟩
  | retried _ _ => exact .inl ⟨_, rfl, rfl⟩
  | forgotten hk hf =>
    subst hk
    exact .inr (.inr (.inl ⟨hf, .inl ⟨rfl, rfl⟩⟩))
  | @purged queue before n _ hp =>
    simp only [purges, Bool.and_eq_true, decide_eq_true_eq] at hp
    obtain ⟨rfl, hf⟩ := hp
    refine .inr (.inr (.inl ⟨?_, .inr ⟨before, n, ?_, rfl⟩⟩))
    · cases hf' : j.failure with
      | none => simp [hf'] at hf
      | some f => rfl
    · rw [← hkey]
      rfl
  | closed => exact .inr (.inr (.inr rfl))

/-- A job that is available is left alone until it is handed out, or the holder of its lapsed
lease settles or extends it, or the queue is closed. -/
theorem available_step (h : Step s e s') (hj : s.queue.jobs.lookup k = some j)
    (hf : j.failure = none) :
    s'.queue.jobs.lookup k = some j ∨ (∃ d, e.delivered = some d ∧ d.key = k) ∨
      (∃ d, e.op.leases = some d ∧ e.ans = .ok ∧ d.key = k ∧ HeldBy j d) ∨ e.op = .close := by
  obtain ⟨op, clk, ans⟩ := e
  have hstep := h.jobStep k
  rw [hj] at hstep
  generalize s'.queue.jobs.lookup k = o at hstep ⊢
  dsimp only at hstep ⊢
  cases hstep with
  | kept _ => exact .inl rfl
  | reserved hk _ _ _ =>
    exact .inr (.inl ⟨_, rfl, deliver_key hk _⟩)
  | acked hk hd => exact .inr (.inr (.inl ⟨_, rfl, rfl, hk.symm, hd⟩))
  | released hk hd => exact .inr (.inr (.inl ⟨_, rfl, rfl, hk.symm, hd⟩))
  | postponed hk hd => exact .inr (.inr (.inl ⟨_, rfl, rfl, hk.symm, hd⟩))
  | extended hk hd _ => exact .inr (.inr (.inl ⟨_, rfl, rfl, hk.symm, hd⟩))
  | buried hk hd => exact .inr (.inr (.inl ⟨_, rfl, rfl, hk.symm, hd⟩))
  | retried _ hf' => simp [hf] at hf'
  | forgotten _ hf' => simp [hf] at hf'
  | purged hp => simp [purges, hf] at hp
  | closed => exact .inr (.inr (.inr rfl))

variable {queues : List String} {receipt : String}

theorem reserveFrom_noJob {now : ℤ}
    (h : (q.reserveFrom now lease receipt queues).1 = .error .noJob) {queue : String}
    (hq : queue ∈ queues) : q.next queue now = none := by
  induction queues with
  | nil => simp at hq
  | cons queue' queues ih =>
    unfold reserveFrom at h
    split at h
    · rename_i hnone
      rcases mem_cons.1 hq with rfl | hq
      · exact hnone
      · exact ih h hq
    · simp at h

/-- `ErrNoJob`: the queue is open, and no job of the queues asked is available. -/
theorem unavailable_of_noJob {clk : Clock}
    (h : (q.step (.reserve queues lease receipt) clk).1 = .error .noJob) (hq : k.queue ∈ queues)
    (hj : q.jobs.lookup k = some j) : q.closed = false ∧ j.available clk.fst = false := by
  simp only [MemoryQueue.step, reserve] at h
  split at h
  · simp at h
  split at h
  · simp at h
  split at h
  · simp at h
  rename_i hopen
  exact ⟨by simpa using hopen, next_eq_none.1 (reserveFrom_noJob h hq) k j hj rfl⟩

/-- A closed queue hands out nothing, and does not answer `ErrNoJob`. -/
theorem reserve_closed (queues : List String) (lease : ℤ) (receipt : String) (clk : Clock)
    (hclosed : q.closed = true) :
    ∃ err, (q.step (.reserve queues lease receipt) clk).1 = .error err ∧ err ≠ .noJob := by
  simp only [MemoryQueue.step, reserve, hclosed, if_true]
  split
  · exact ⟨_, rfl, by simp⟩
  · split <;> exact ⟨_, rfl, by simp⟩

/-- **No job is passed over.** A job available at `now` is handed out, or its lapsed lease is used
by its holder, before its queue answers `ErrNoJob`. -/
theorem delivered_before_noJob {now : ℤ} (h : Run Step s₀ es s) (hstep : Step s e s')
    (hj : s₀.queue.jobs.lookup k = some j) (ha : j.available now = true) (hnow : now ≤ e.clk.fst)
    (hop : e.op = .reserve queues lease receipt) (hq : k.queue ∈ queues)
    (hno : e.ans = .error .noJob) :
    ∃ e' ∈ es, (∃ d, e'.delivered = some d ∧ d.key = k) ∨
      ∃ d, e'.op.leases = some d ∧ e'.ans = .ok ∧ d.key = k ∧ HeldBy j d := by
  have hf := MemoryJob.failure_of_available ha
  by_contra hnone
  push Not at hnone
  -- untouched, the job is still there, or the queue has been closed
  have hkept : s.queue.jobs.lookup k = some j ∨ s.queue.closed = true := by
    refine h.preserves_while
      (I := fun s => s.queue.jobs.lookup k = some j ∨ s.queue.closed = true)
      (P := fun e' => (∀ d, e'.delivered = some d → d.key ≠ k) ∧
        ∀ d, e'.op.leases = some d → e'.ans = .ok → d.key = k → ¬ HeldBy j d)
      ?_ hnone (.inl hj)
    rintro s e' s' hs ⟨hdel, huse⟩ (hjs | hclosed)
    · rcases available_step hs hjs hf with hkeep | ⟨d, hd, hk⟩ | ⟨d, hd, hok, hk, hheld⟩ | hclose
      · exact .inl hkeep
      · exact absurd hk (hdel d hd)
      · exact absurd hheld (huse d hd hok hk)
      · exact .inr (by simp [hs.closed, hclose])
    · exact .inr (by simp [hs.closed, hclosed])
  have hans := hstep.ans
  rw [hno, hop] at hans
  rcases hkept with hjs | hclosed
  · have havail := (unavailable_of_noJob hans.symm hq hjs).2
    rw [MemoryJob.available_mono hnow ha] at havail
    cases havail
  · obtain ⟨err, herr, hne⟩ := reserve_closed queues lease receipt e.clk hclosed
    rw [herr] at hans
    exact hne (Answer.error.inj hans).symm

/-! ## The guarantees -/

/-- The lease of the delivery `d₁` is over: its receipt was settled, or its job was handed out
again. -/
def LeaseOver (d₁ : Delivery) (es : List Event) : Prop :=
  ∃ e ∈ es, e.Settles d₁.receipt ∨ ∃ d, e.delivered = some d ∧ d.key = d₁.key

theorem Leased.dead_of_over (h : Leased d.key d.receipt D es s) (hover : LeaseOver d es) :
    Dead d.receipt s := by
  rcases h with ⟨-, hes⟩ | ⟨hdead, -⟩
  · obtain ⟨e, he, hset | ⟨d', hd', hk⟩⟩ := hover
    · exact absurd hset (hes e he).1
    · exact absurd hk ((hes e he).2 d' hd')
  · exact hdead

/-- **Leased delivery.** In every history of a `MemoryQueue`:

* a job handed out under `r` is handed out again only after `r` was settled, or at or after the
  last deadline set for `r`;
* once it has been handed out again, or `r` was settled, every operation with `r` fails and leaves
  the queue as it is; the error is `ErrLeaseLost` unless the queue was closed (`ErrClosed`) or
  the operation is an `Extend` by a lease that is not positive;
* a job leaves the queue only by an `Ack` under its current receipt, by `ForgetFailed` or
  `PurgeFailed` while it is failed, or with `Close`;
* a job that is available is handed out before its queue answers `ErrNoJob`, unless the holder of
  its lapsed lease settles or extends it first. -/
theorem leased_delivery (t : ℤ) :
    (∀ pre e₁ mid e₂ s d₁ d₂, History t (pre ++ [e₁] ++ mid ++ [e₂]) s →
      e₁.delivered = some d₁ → e₂.delivered = some d₂ → d₂.key = d₁.key →
      (∃ e ∈ mid, e.Settles d₁.receipt) ∨
        ∃ D, lastDeadline d₁.receipt (e₁ :: mid) = some D ∧ D ≤ e₂.clk.fst) ∧
    (∀ pre e₁ mid s e s' d₁ d, History t (pre ++ [e₁] ++ mid) s → e₁.delivered = some d₁ →
      LeaseOver d₁ mid → Step s e s' → e.op.leases = some d → d.receipt = d₁.receipt →
      s'.queue = s.queue ∧ (∃ err, e.ans = .error err) ∧
        ((∀ e' ∈ pre ++ [e₁] ++ mid, e'.op ≠ .close) →
          (∀ lease, e.op = .extend d lease → 0 < lease) →
          e.ans = .error (.leaseLost d.envelope.id))) ∧
    (∀ es s e s' k j, History t es s → Step s e s' → s.queue.jobs.lookup k = some j →
      (∃ j', s'.queue.jobs.lookup k = some j' ∧ j'.env = j.env) ∨
        (∃ d, e.op = .ack d ∧ e.ans = .ok ∧ d.key = k ∧ HeldBy j d) ∨
        (j.failure.isSome = true ∧ e.Discards k) ∨ e.op = .close) ∧
    (∀ pre s₀ es s e s' k j now queues lease receipt, History t pre s₀ → Run Step s₀ es s →
      Step s e s' → s₀.queue.jobs.lookup k = some j → j.available now = true →
      now ≤ e.clk.fst → e.op = .reserve queues lease receipt → k.queue ∈ queues →
      e.ans = .error .noJob →
      ∃ e' ∈ es, (∃ d, e'.delivered = some d ∧ d.key = k) ∨
        ∃ d, e'.op.leases = some d ∧ e'.ans = .ok ∧ d.key = k ∧ HeldBy j d) := by
  refine ⟨?_, ?_, ?_, ?_⟩
  · intro pre e₁ mid e₂ s d₁ d₂ h hd₁ hd₂ hk
    obtain ⟨s₂, h₂, hstep⟩ := h.snoc_inv
    obtain ⟨s₁, h₁, hmid⟩ := h₂.append_inv
    obtain ⟨D, hD, hl⟩ := leased_history h₁ hd₁ hmid
    obtain ⟨j, queues, lease, hop, -, hj, hav, -⟩ := reserved_of_delivered hstep hd₂
    have hclock := hstep.clock
    rcases hl with ⟨⟨i, hi, hres, -, rfl⟩, -⟩ | ⟨-, hset | hpast | hclosed⟩
    · -- still held: the second `Reserve` found the lease lapsed
      rw [hk, hi] at hj
      cases hj
      have hf := MemoryJob.failure_of_available hav
      refine .inr ⟨_, hD, ?_⟩
      simpa [MemoryJob.available, hf, hres] using hav
    · exact .inl hset
    · exact .inr ⟨D, hD, hpast.trans hclock.1⟩
    · -- a closed queue hands out nothing
      obtain ⟨_, _, _, _, hans⟩ := delivered_eq_some.1 hd₂
      have hstepans := hstep.ans
      rw [hans, hop] at hstepans
      obtain ⟨err, herr, -⟩ := reserve_closed queues lease d₂.receipt e₂.clk hclosed
      rw [herr] at hstepans
      cases hstepans
  · intro pre e₁ mid s e s' d₁ d h hd₁ hover hstep hop hr
    obtain ⟨s₁, h₁, hmid⟩ := h.append_inv
    obtain ⟨D, -, hl⟩ := leased_history h₁ hd₁ hmid
    have hlost := (hl.dead_of_over hover).leased hr
    obtain ⟨hq, hans⟩ := step_of_leased_error e.clk hop hlost
    rw [← hstep.queue] at hq
    rw [← hstep.ans] at hans
    refine ⟨hq, ?_, ?_⟩
    · rcases hans with hans | ⟨_, _, _, hans⟩ <;> exact ⟨_, hans⟩
    · intro hclose hpos
      have hopen : s.queue.closed = false := by
        rw [← Bool.not_eq_true, closed_iff h]
        rintro ⟨e', he', hc⟩
        exact hclose e' he' hc
      rcases hans with hans | ⟨lease, hext, hle, -⟩
      · simpa [hopen] using hans
      · have := hpos lease hext
        omega
  · intro es s e s' k j _ hstep hj
    exact stays_or_leaves hstep hj
  · intro pre s₀ es s e s' k j now queues lease receipt _ hrun hstep hj ha hnow hop hq hno
    exact delivered_before_noJob hrun hstep hj ha hnow hop hq hno

/-! ### A lapsed lease

A job pushed at 1 and handed out at 2 for 10; the lease lapses at 12. -/

def lapsedJob : Envelope := ⟨"7", "mail", 1, "", [], 0, 0⟩

/-- The first delivery, under `r1`. -/
def lapsedDelivery : Delivery := ⟨"default", { lapsedJob with attempt := 1 }, "r1", false, 1, none⟩

/-- The second delivery, under `r2`. -/
def takenDelivery : Delivery := ⟨"default", { lapsedJob with attempt := 2 }, "r2", true, 12, none⟩

def pushed : Event := ⟨.push "default" lapsedJob 0, .const 1, .ok⟩

def handedOut : Event := ⟨.reserve ["default"] 10 "r1", .const 2, .delivery lapsedDelivery⟩

def takenOver : Event := ⟨.reserve ["default"] 10 "r2", .const 20, .delivery takenDelivery⟩

theorem takenOver_history :
    History 0 ([pushed] ++ [handedOut] ++ [takenOver]) (afterCalls [pushed, handedOut, takenOver]) :=
  Clocked.run_play (by decide) (by decide)

theorem leased_delivery_takenOver :
    (∃ D, lastDeadline "r1" [handedOut] = some D ∧ D ≤ 20) ∧
    (∃ s', Step (afterCalls [pushed, handedOut, takenOver])
        ⟨.ack lapsedDelivery, .const 21, .error (.leaseLost "7")⟩ s' ∧
      s'.queue = (afterCalls [pushed, handedOut, takenOver]).queue) ∧
    (∃ j', (afterCalls [pushed, handedOut, takenOver]).queue.jobs.lookup ⟨"default", "7"⟩ =
      some j') ∧
    (∃ d, handedOut.delivered = some d ∧ d.key = ⟨"default", "7"⟩) := by
  obtain ⟨ha, hb, hc, hd⟩ := leased_delivery 0
  refine ⟨?_, ?_, ?_, ?_⟩
  · rcases ha [pushed] handedOut [] takenOver _ lapsedDelivery takenDelivery takenOver_history
      rfl rfl rfl with ⟨e, he, -⟩ | h
    · simp at he
    · exact h
  · have hstep : Step (afterCalls [pushed, handedOut, takenOver])
        ⟨.ack lapsedDelivery, .const 21, .error (.leaseLost "7")⟩ _ :=
      Clocked.step_after (by decide) (by decide)
    refine ⟨_, hstep, ?_⟩
    exact (hb [pushed] handedOut [takenOver] _ _ _ lapsedDelivery lapsedDelivery takenOver_history
      rfl ⟨takenOver, by simp, .inr ⟨takenDelivery, rfl, rfl⟩⟩ hstep rfl rfl).1
  · have hrun : History 0 [pushed, handedOut] (afterCalls [pushed, handedOut]) :=
      Clocked.run_play (by decide) (by decide)
    have hstep : Step (afterCalls [pushed, handedOut]) takenOver
        (afterCalls [pushed, handedOut, takenOver]) :=
      Clocked.step_after (by decide) (by decide)
    rcases hc _ _ _ _ ⟨"default", "7"⟩
      (leaseJob (MemoryQueue.empty.newJob 1 "default" lapsedJob 0 none) 2 10 "r1")
      hrun hstep (by decide) with ⟨j', hj', -⟩ | ⟨_, h, _⟩ | ⟨h, _⟩ | h
    · exact ⟨j', hj'⟩
    all_goals simp [takenOver, leaseJob, MemoryQueue.newJob] at h
  · have hrun : History 0 [pushed] (afterCalls [pushed]) := Clocked.run_play (by decide) (by decide)
    have hout : Run Step (afterCalls [pushed]) [handedOut] (afterCalls [pushed, handedOut]) :=
      .single (Clocked.step_after (by decide) (by decide))
    have hstep : Step (afterCalls [pushed, handedOut])
        ⟨.reserve ["default"] 10 "r2", .const 3, .error .noJob⟩ _ :=
      Clocked.step_after (by decide) (by decide)
    obtain ⟨e', he', h | ⟨d, h, _⟩⟩ := hd [pushed] _ _ _ _ _ ⟨"default", "7"⟩
      (MemoryQueue.empty.newJob 1 "default" lapsedJob 0 none) 1 _ _ _ hrun hout hstep (by decide)
      (by decide) (by decide) rfl (by decide) rfl
    · rw [mem_singleton.1 he'] at h
      exact h
    · rw [mem_singleton.1 he'] at h
      simp [handedOut, Op.leases, Op.settles] at h

/-- **What leased delivery does not promise.** After the lease of `lapsedDelivery` was taken over,
an `Ack` with its receipt fails with `ErrClosed` on a queue that has been closed since, and an
`Extend` by no time with its own error: neither is `ErrLeaseLost`. And a job whose lease lapsed at
12 can be acknowledged by the holder of that lease at 13, so the queue answers `ErrNoJob` at 14
though no `Reserve` has returned the job since it became available again. -/
theorem leased_delivery_limits :
    (∃ s s', History 0 ([pushed] ++ [handedOut] ++ [takenOver, ⟨.close, .const 21, .ok⟩]) s ∧
      LeaseOver lapsedDelivery [takenOver, ⟨.close, .const 21, .ok⟩] ∧
      Step s ⟨.ack lapsedDelivery, .const 22, .error .closed⟩ s') ∧
    (∃ s s', History 0 ([pushed] ++ [handedOut] ++ [takenOver]) s ∧
      LeaseOver lapsedDelivery [takenOver] ∧
      Step s ⟨.extend lapsedDelivery 0, .const 22, .error (.leaseNotPositive 0)⟩ s') ∧
    (∃ s₀ s s' j, History 0 [pushed, handedOut] s₀ ∧
      s₀.queue.jobs.lookup ⟨"default", "7"⟩ = some j ∧ j.available 12 = true ∧
      Run Step s₀ [⟨.ack lapsedDelivery, .const 13, .ok⟩] s ∧
      Step s ⟨.reserve ["default"] 10 "r2", .const 14, .error .noJob⟩ s') := by
  refine ⟨?_, ?_, ?_⟩
  · refine ⟨afterCalls [pushed, handedOut, takenOver, ⟨.close, .const 21, .ok⟩], _,
      Clocked.run_play (by decide) (by decide), ?_, Clocked.step_after (by decide) (by decide)⟩
    exact ⟨takenOver, by simp, .inr ⟨takenDelivery, rfl, rfl⟩⟩
  · refine ⟨_, _, takenOver_history, ?_, Clocked.step_after (by decide) (by decide)⟩
    exact ⟨takenOver, by simp, .inr ⟨takenDelivery, rfl, rfl⟩⟩
  · refine ⟨afterCalls [pushed, handedOut], _, _,
      leaseJob (MemoryQueue.empty.newJob 1 "default" lapsedJob 0 none) 2 10 "r1",
      Clocked.run_play (by decide) (by decide), by decide, by decide,
      .single (Clocked.step_after (by decide) (by decide)),
      Clocked.step_after (by decide) (by decide)⟩

end Gombit.Jobs
