import Gombit.Jobs.MirrorSteps

/-!
# The drivers settle leases alike

The operations on a lease and on a failed job, from related states: `Ack`, `Release`, `Postpone`,
`Extend`, `Bury`, `FailedJob`, `RetryFailed` and `ForgetFailed`, and the three on a `Once` key.

* `Mirrors.holds_or_lost`: a delivery holds its job's lease on both sides or on neither.
* `Related.releaseUnique`: a claim is given up on both sides or on neither.
-/

namespace Gombit.Jobs

open Redis RedisKeys MemoryQueue

variable {d : Delivery} {N : ℕ} {k : RedisKeys} {num : String → ℕ} {j : MemoryJob} {queue : String}
  {at_ : ℤ} {f : Failure}

section Settling

variable {c : Codec} {now : ℤ} {drawn : String → ℕ} {op : Op} {mem mem' : MemoryQueue}
  {red : RedisQueue}

/-! ## Leases -/

/-- The delivery `d` holds the lease of the job `j`, on both sides. -/
structure HoldsBoth (mem : MemoryQueue) (k : RedisKeys) (n : ℕ) (d : Delivery) (j : MemoryJob) :
    Prop where
  leased : mem.leased d = .ok j
  stored : mem.jobs.lookup ⟨d.queue, d.envelope.id⟩ = some j
  reserved : j.reserved = true
  failure : j.failure = none
  given : d.receipt ≠ ""
  receipt : (k.job d.envelope.id).receipt = some d.receipt
  member : (k.job d.envelope.id).member = some (member n d.envelope.id)
  only : k.OccursOnly d.envelope.id (some (.reserved, Jobs.member n d.envelope.id))

/-- **A lease is held on both sides or lost on both.** -/
theorem Mirrors.holds_or_lost (hm : Mirrors c d.queue N mem k num) (hopen : mem.closed = false) :
    (∃ j, HoldsBoth mem k (num d.envelope.id) d j) ∨
      mem.leased d = .error (.leaseLost d.envelope.id) ∧
        (d.receipt = "" ∨ (k.job d.envelope.id).receipt ≠ some d.receipt) := by
  cases hj : mem.jobs.lookup ⟨d.queue, d.envelope.id⟩ with
  | none =>
    refine .inr ⟨by simp [leased, hopen, hj], .inr ?_⟩
    simp [hm.missing _ hj, JobHash.absent]
  | some j =>
    have hmj := hm.stored _ j hj
    have hid := (Mirrors.key hj).2
    have hhash := hmj.hash
    rw [hid] at hhash
    have hreceipt : (k.job d.envelope.id).receipt = some j.receipt := by rw [hhash]; rfl
    by_cases hheld : d.receipt ≠ "" ∧ j.receipt = d.receipt
    · obtain ⟨hgiven, hsame⟩ := hheld
      have hres := hmj.tame.receipt.1 (hsame ▸ hgiven)
      have hmember : (k.job d.envelope.id).member =
          some (Jobs.member (num d.envelope.id) j.env.id) := by
        rw [hhash]; rfl
      rw [hid] at hmember
      rw [hsame] at hreceipt
      obtain ⟨m, hfits, honly⟩ := hm.consistent.leased hreceipt hgiven
      have hmm := hfits.member (by simp)
      rw [hmember] at hmm
      cases hmm
      have hfail : j.failure = none := by
        by_contra hne
        obtain ⟨f, hf⟩ := Option.ne_none_iff_exists'.1 hne
        simp [(hmj.tame.failure f hf).2.2] at hres
      refine .inl ⟨j, ?_, hj, hres, hfail, hgiven, hreceipt, hmember, honly⟩
      simp [leased, hopen, hj, hres, hgiven, hsame]
    · refine .inr ⟨?_, ?_⟩
      · by_cases hgiven : d.receipt = ""
        · simp [leased, hopen, hj, hgiven]
        · have hne : j.receipt ≠ d.receipt := fun heq => hheld ⟨hgiven, heq⟩
          simp [leased, hopen, hj, hne]
      · by_cases hgiven : d.receipt = ""
        · exact .inl hgiven
        · rw [hreceipt]
          exact .inr fun heq => hheld ⟨hgiven, Option.some.inj heq⟩

/-- The job of a held lease, and its image. -/
theorem HoldsBoth.image (hm : Mirrors c d.queue N mem k num)
    (hh : HoldsBoth mem k (num d.envelope.id) d j) :
    j.queue = d.queue ∧ j.env.id = d.envelope.id ∧ j.Tame c ∧
      k.job d.envelope.id = j.hash c (num d.envelope.id) := by
  obtain ⟨hq, hid⟩ := Mirrors.key hh.stored
  have hmj := hm.stored _ j hh.stored
  exact ⟨hq, hid, hmj.tame, by rw [← hid, hmj.hash, hid]⟩

variable {s : Script RedisKeys ℕ} {id key : String}

theorem RedisQueue.settle_lost (hopen : red.closed = false)
    (hlost : d.receipt = "" ∨ s.run (red.keys d.queue) = .ok 0 (red.keys d.queue)) :
    red.settle d s = (.error (.leaseLost d.envelope.id), red) := by
  unfold RedisQueue.settle
  rw [hopen, if_neg (by simp)]
  split_ifs with hrefused
  · rfl
  · have hrun := hlost.resolve_left fun heq => hrefused (by simp [heq])
    rw [RedisQueue.ask_eq hrun, RedisQueue.setKeys_keys_eq]
    rfl

theorem RedisQueue.settle_held (hopen : red.closed = false) (hname : validName d.queue = true)
    (hgiven : d.receipt ≠ "") (hrun : s.run (red.keys d.queue) = .ok 1 k) :
    red.settle d s = (.ok, red.setKeys d.queue k) := by
  simp [RedisQueue.settle, hopen, hname, hgiven, RedisQueue.ask_eq hrun]

/-- A script leaves consistent data. -/
theorem Mirrors.consistent_after {k' : RedisKeys} (hm : Mirrors c queue N mem k num) (call : Call)
    (hsent : call.Sent) (hexec : call.exec k = k') (hseq : k'.seq ≤ 2 ^ 53) : k'.Consistent := by
  subst hexec
  exact (call.effect hm.consistent hsent (lt_seqLimit hseq)).consistent hm.consistent

/-! ## Claims -/

theorem MemoryQueue.lookup_releaseUnique (hheld : j.heldUnique = true) (key : MemoryKey) :
    (mem.releaseUnique j).uniques.lookup key =
      if key = ⟨j.queue, j.unique⟩ then
        (mem.uniques.lookup key).filter fun claim => decide (claim.holder ≠ j.env.id)
      else mem.uniques.lookup key := by
  unfold releaseUnique
  rw [hheld, if_neg (by simp)]
  by_cases hkey : key = ⟨j.queue, j.unique⟩
  · subst hkey
    cases hc : mem.uniques.lookup ⟨j.queue, j.unique⟩ with
    | none => simp [hc]
    | some claim => by_cases hholder : claim.holder = j.env.id <;> simp [hholder, hc, Option.filter]
  · rw [if_neg hkey]
    split
    · split
      · exact AList.lookup_erase_ne hkey
      · rfl
    · rfl

theorem RedisKeys.lookup_releaseUnique {server : ℤ} {job : String}
    (hu : (k.job job).unique = some key) (key' : String) :
    (k.releaseUnique server job id).unique.lookup key' =
      if key' = key then
        if RedisString.live server (k.unique.lookup key') = some id then none
        else k.unique.lookup key'
      else k.unique.lookup key' := by
  unfold RedisKeys.releaseUnique
  simp only [hu]
  have hlive : getKey k.unique server key = RedisString.live server (k.unique.lookup key) := rfl
  rw [hlive]
  by_cases hkey : key' = key
  · subst hkey
    split <;> simp [RedisKeys.delUnique, *]
  · rw [if_neg hkey]
    split
    · exact AList.lookup_erase_ne hkey
    · rfl

/-- **A claim is given up on both sides or on neither.** -/
theorem Related.releaseUnique (h : Related c now drawn mem red)
    (hm : Mirrors c queue (drawn queue) mem (red.keys queue) num)
    (hj : mem.jobs.lookup ⟨queue, id⟩ = some j) (hfail : j.failure = none)
    (hu : mem'.uniques = (mem.releaseUnique j).uniques)
    (hk : k.unique = ((red.keys queue).releaseUnique (unixMilli now) id id).unique)
    (queue' key : String) :
    SameClaim now (mem'.uniques.lookup ⟨queue', key⟩)
      (((red.setKeys queue k).keys queue').unique.lookup key) := by
  obtain ⟨hq, hid⟩ := Mirrors.key hj
  have hmj := hm.stored _ j hj
  have hheld := hmj.tame.held
  have hunique : ((red.keys queue).job id).unique = if j.unique = "" then none else some j.unique := by
    rw [← hid, hmj.hash]
    rfl
  by_cases hnone : j.unique = ""
  · refine h.sameUniques (hu.trans ?_) (hk.trans ?_) queue' key
    · simp [MemoryQueue.releaseUnique, hheld, hnone]
    · simp [RedisKeys.releaseUnique, hunique, hnone]
  · rw [if_neg hnone] at hunique
    rw [hu, MemoryQueue.lookup_releaseUnique (by simp [hheld, hnone, hfail]), hq, hid]
    by_cases hqueue : queue' = queue
    · subst hqueue
      rw [RedisQueue.setKeys_keys_self, hk, RedisKeys.lookup_releaseUnique hunique]
      by_cases hkey : key = j.unique
      · rw [if_pos (by rw [hkey]), if_pos hkey]
        exact (h.uniques queue' key).release id
      · rw [if_neg (by simpa using hkey), if_neg hkey]
        exact h.uniques queue' key
    · rw [RedisQueue.setKeys_keys_ne _ _ hqueue, if_neg (by simp [hqueue])]
      exact h.uniques queue' key

/-! ## Settling -/

/-- An operation that finds the lease lost, on both sides. -/
theorem settle_lost_simulates (h : Related c now drawn mem red)
    (hb : ∀ q, drawnAfter drawn op q ≤ 2 ^ 53)
    (hmem : mem.step op (.const now) = (.error (.leaseLost d.envelope.id), mem))
    (hred : red.step c now op = red.settle d s)
    (hlost : d.receipt = "" ∨ s.run (red.keys d.queue) = .ok 0 (red.keys d.queue)) :
    Simulates c now drawn op mem red :=
  simulates_of_eq _ h hb hmem (hred.trans (RedisQueue.settle_lost h.redOpen hlost))

theorem ack_simulates (h : Related c now drawn mem red)
    (hb : ∀ q, drawnAfter drawn (.ack d) q ≤ 2 ^ 53) (hname : validName d.queue = true) :
    Simulates c now drawn (.ack d) mem red := by
  obtain ⟨num, hm⟩ := h.queues d.queue
  rcases hm.holds_or_lost h.memOpen with ⟨j, hh⟩ | ⟨hlost, hlost'⟩
  · obtain ⟨hq, hid, htame, hhash⟩ := hh.image hm
    have hkey : j.key = ⟨d.queue, d.envelope.id⟩ := mem.keyed _ _ hh.stored
    have hrun := run_ackScript (red.keys d.queue) d.envelope.id (unixMilli now) hh.receipt hh.member
    rw [memberID_member (lt_seqLimit (hm.num_le hh.stored))] at hrun
    have hframe : MemFrame mem ((mem.releaseUnique j).dropJob ⟨d.queue, d.envelope.id⟩)
        ⟨d.queue, d.envelope.id⟩ := .dropJob (by simp) (by simp) (by simp)
    refine simulates_onQueue _ h ?_ (RedisQueue.settle_held h.redOpen hname hh.given hrun)
      (fun _ _ => rfl) hframe ⟨num, ?_⟩ (h.releaseUnique hm hh.stored hh.failure rfl rfl) ?_
    · rw [← hkey]
      simp [MemoryQueue.step, MemoryQueue.ack, hh.leased]
    · refine hm.remove (p := fun id => id = d.envelope.id) ?_ (by simp) (by simp) ?_ ?_ ?_
      · refine hm.consistent_after (.ack (unixMilli now) d.envelope.id d.receipt) hh.given
          (after_eq hrun) ?_
        simpa using hm.seq_le.trans hm.bound
      · intro id
        split
        · rename_i hid
          rw [hid]
          simp
        · rename_i hid
          exact hframe.others id hid
      · intro id
        simp [RedisKeys.setJob, Function.update_apply]
      · intro key m hne
        have hmid : ∀ key' ≠ SetKey.failed, ¬(key = key' ∧
            m = member (num d.envelope.id) d.envelope.id) := by
          rintro (_ | _ | _) hkey' ⟨rfl, rfl⟩
          · exact hne (memberID_member (lt_seqLimit (hm.num_le hh.stored)) _)
          · exact hne (memberID_member (lt_seqLimit (hm.num_le hh.stored)) _)
          · exact hkey' rfl
        rw [setJob_set, lookup_zrem_ne _ _ _ (hmid .pending (by simp)),
          lookup_zrem_ne _ _ _ (hmid .reserved (by simp)), releaseUnique_set]
    · intro key
      simpa using h.once key
  · refine settle_lost_simulates h hb (by simp [MemoryQueue.step, MemoryQueue.ack, hlost]) rfl
      (hlost'.imp_right fun hne => ?_)
    exact (run_of_receipt_ne _ _ (unixMilli now) hne 0 "" false "").1

variable {uncount : Bool} {ans : Answer}

theorem releaseJob_tame (h : j.Tame c) (hfail : j.failure = none)
    (hnow : Whole now) (hat : at_ = 0 ∨ Whole at_) :
    (mem.releaseJob j now at_ uncount).Tame c where
  env := h.env
  receipt := by simp [releaseJob]
  available := Whole.atLeast hat hnow
  deadline := by simp [releaseJob]
  failure := by simp [releaseJob, hfail]
  held := h.held
  ttl := h.ttl
  raw := h.raw

/-- What `releaseScript` stores of a leased job. -/
theorem run_releaseScript_image (now at_ : ℤ) (uncount : Bool) (hm : Mirrors c d.queue N mem k num)
    (hh : HoldsBoth mem k (num d.envelope.id) d j) :
    (releaseScript d.envelope.id d.receipt (unixMilli (atLeast at_ now)) d.envelope.id uncount).run
      k = .ok 1 ((k.zrem .reserved (member (num d.envelope.id) d.envelope.id)).queued d.envelope.id
        ((mem.releaseJob j now at_ uncount).hash c (num d.envelope.id))
        (unixMilli (atLeast at_ now))) := by
  rw [run_releaseScript _ _ _ _ hh.receipt hh.member, (hh.image hm).2.2.2]
  have hattempts : (if uncount && 0 < (j.hash c (num d.envelope.id)).attempts.getD 0 then
      some ((j.hash c (num d.envelope.id)).attempts.getD 0 - 1)
      else (j.hash c (num d.envelope.id)).attempts) =
        some (if uncount then j.attempts - 1 else j.attempts) := by
    change (if uncount && 0 < j.attempts then some (j.attempts - 1) else some j.attempts) = _
    cases uncount with
    | false => rfl
    | true =>
      by_cases hpos : 0 < j.attempts
      · simp [hpos]
      · simp [Nat.eq_zero_of_not_pos hpos]
  rw [hattempts]
  rfl

/-- `release` and `Postpone`, on both sides. -/
theorem release_related (h : Related c now drawn mem red)
    (hmem : mem.step op (.const now) = mem.release (.const now) d at_ uncount)
    (hred : red.step c now op = red.release now d at_ uncount)
    (hdraws : ∀ q, op.drawsOn q = decide (d.queue = q)) (hb : ∀ q, drawnAfter drawn op q ≤ 2 ^ 53)
    (hnow : Whole now) (hname : validName d.queue = true) (hat : at_ = 0 ∨ Whole at_) :
    Simulates c now drawn op mem red := by
  obtain ⟨num, hm⟩ := h.queues d.queue
  rcases hm.holds_or_lost h.memOpen with ⟨j, hh⟩ | ⟨hlost, hlost'⟩
  · obtain ⟨hq, hid, htame, hhash⟩ := hh.image hm
    have hrun := run_releaseScript_image now at_ uncount hm hh
    have hN : drawnAfter drawn op d.queue = drawn d.queue + 1 := by simp [drawnAfter, hdraws]
    have hframe : MemFrame mem ({ mem with seq := mem.seq + 1 }.setJob
        (mem.releaseJob j now at_ uncount)) ⟨d.queue, d.envelope.id⟩ := by
      rw [← mem.keyed _ _ hh.stored]
      exact .setJob rfl rfl (Nat.le_succ _)
    refine simulates_onQueue d.envelope.id h ?_
      (hred.trans (RedisQueue.settle_held h.redOpen hname hh.given hrun)) ?_ hframe ?_
      (h.sameUniques rfl rfl) h.once
    · rw [hmem]
      simp [release, hh.leased, Clock.const]
    · intro queue' hne
      simp [hdraws, Ne.symm hne]
    · rw [hN]
      refine hm.queued (j := mem.releaseJob j now at_ uncount) hid
        ((Frame.refl _ _).zrem hh.only.idOf_eq) hh.only.zrem rfl ?_
        (lookup_setJob_of_key _ _ ?_) hframe.others rfl rfl
        (releaseJob_tame htame hh.failure hnow hat) hh.failure rfl ?_
      · have := hb d.queue
        omega
      · exact (releaseJob_key ..).trans (mem.keyed _ _ hh.stored)
      · rw [← hid]
        rfl
  · refine settle_lost_simulates h hb (by simp [hmem, release, hlost]) hred
      (hlost'.imp_right fun hne => ?_)
    exact (run_of_receipt_ne _ _ 0 hne _ _ uncount "").2.1

theorem extendJob_hash (j : MemoryJob) (lease : ℤ) (n : ℕ) :
    (MemoryQueue.extendJob j now lease).hash c n = j.hash c n := rfl

theorem extendJob_tame {lease : ℤ} (h : j.Tame c) (hnow : Whole now) (hl : 0 < lease)
    (hdvd : 10 ^ 6 ∣ lease) : (MemoryQueue.extendJob j now lease).Tame c :=
  { h with deadline := fun _ => hnow.add hdvd hl.le }

theorem extend_simulates (h : Related c now drawn mem red) {lease : ℤ}
    (hb : ∀ q, drawnAfter drawn (.extend d lease) q ≤ 2 ^ 53) (hnow : Whole now)
    (hname : validName d.queue = true) (hdvd : 10 ^ 6 ∣ lease) :
    Simulates c now drawn (.extend d lease) mem red := by
  rcases le_or_gt lease 0 with hl | hl
  · refine simulates_of_eq (.error (.leaseNotPositive lease)) h hb ?_ ?_
    · simp [step, extend, hl]
    · simp [RedisQueue.step, RedisQueue.extend, hl, h.redOpen]
  obtain ⟨num, hm⟩ := h.queues d.queue
  have hred : red.step c now (.extend d lease) =
      red.settle d (extendScript d.envelope.id d.receipt (unixMilli (now + lease))) := by
    simp [RedisQueue.step, RedisQueue.extend, h.redOpen, not_le.2 hl]
  rcases hm.holds_or_lost h.memOpen with ⟨j, hh⟩ | ⟨hlost, hlost'⟩
  · obtain ⟨hq, hid, htame, hhash⟩ := hh.image hm
    have hkey : (extendJob j now lease).key = ⟨d.queue, d.envelope.id⟩ :=
      (extendJob_key ..).trans (mem.keyed _ _ hh.stored)
    have hrun := run_extendScript (red.keys d.queue) d.envelope.id (unixMilli (now + lease))
      hh.receipt hh.member
    have hframe : MemFrame mem (mem.setJob (extendJob j now lease))
        ⟨d.queue, d.envelope.id⟩ := by
      rw [← hkey]
      exact .setJob rfl rfl le_rfl
    refine simulates_onQueue d.envelope.id h ?_
      (hred.trans (RedisQueue.settle_held h.redOpen hname hh.given hrun)) (fun _ _ => rfl) hframe
      ⟨num, ?_⟩ (h.sameUniques rfl rfl) h.once
    · simp [step, extend, not_le.2 hl, hh.leased, Clock.const]
    · refine hm.rewrite ((Frame.refl _ _).zadd hh.only.idOf_eq) ?_
        (lookup_setJob_of_key _ _ hkey) hframe.others hh.stored rfl rfl rfl
        ⟨extendJob_tame htame hnow hl hdvd, ?_, ?_⟩
      · exact hm.consistent_after (.extend d.envelope.id d.receipt (unixMilli (now + lease)))
          hh.given (after_eq hrun) (hm.seq_le.trans hm.bound)
      · rw [extendJob_hash, ← hhash]
        exact congrArg _ hid
      · have hmember : (extendJob j now lease).memberAs (num d.envelope.id) =
            member (num d.envelope.id) d.envelope.id := by
          simp [MemoryJob.memberAs, extendJob, hh.failure, hid]
        rw [hmember]
        simp [MemoryJob.place, MemoryJob.placedAt, MemoryJob.readyAt, extendJob,
          hh.failure, hh.reserved, score]
  · refine settle_lost_simulates h hb ?_ hred (hlost'.imp_right fun hne => ?_)
    · simp [step, extend, not_le.2 hl, hlost]
    · exact (run_of_receipt_ne _ _ 0 hne _ "" false "").2.2.1

theorem buryJob_hash (j : MemoryJob) (f : Failure) (n : ℕ) :
    (MemoryQueue.buryJob j f).hash c n =
      { j.hash c n with receipt := some "", failure := c.marshalFailure f } := rfl

theorem buryJob_tame (h : j.Tame c) (hf : c.KeepsFailure f) (hat : Whole f.at_) :
    (MemoryQueue.buryJob j f).Tame c where
  env := h.env
  receipt := by simp [buryJob]
  available := h.available
  deadline := by simp [buryJob]
  failure := by rintro f' ⟨⟩; exact ⟨hf, hat, rfl⟩
  held := by simp [buryJob]
  ttl := h.ttl
  raw := h.raw

theorem MemoryQueue.step_bury (h : mem.leased d = .ok j) : mem.step (.bury d f) (.const now) =
      (.ok, (mem.releaseUnique j).setJob (MemoryQueue.buryJob j (f.stamp now))) := by
  simp [step, bury, h, Clock.const]

theorem MemoryQueue.step_bury_lost {e : Err} (h : mem.leased d = .error e) :
    mem.step (.bury d f) (.const now) = (.error e, mem) := by
  simp [step, bury, h]

theorem bury_simulates (h : Related c now drawn mem red)
    (hb : ∀ q, drawnAfter drawn (.bury d f) q ≤ 2 ^ 53) (hname : validName d.queue = true)
    (hf : c.KeepsFailure (f.stamp now)) (hat : Whole (f.stamp now).at_) :
    Simulates c now drawn (.bury d f) mem red := by
  obtain ⟨num, hm⟩ := h.queues d.queue
  obtain ⟨data, hdata, -⟩ := id hf
  have hred : red.step c now (.bury d f) = red.settle d (buryScript (unixMilli now) d.envelope.id
      d.receipt d.envelope.id (unixMilli (f.stamp now).at_) data) := by
    simp only [RedisQueue.step, RedisQueue.bury, h.redOpen, hdata, Bool.false_eq_true, if_false]
    split_ifs with hrefused
    · simp [RedisQueue.settle, h.redOpen, hrefused]
    · rfl
  rcases hm.holds_or_lost h.memOpen with ⟨j, hh⟩ | ⟨hlost, hlost'⟩
  · obtain ⟨hq, hid, htame, hhash⟩ := hh.image hm
    have hkey := mem.keyed _ _ hh.stored
    have hrun := run_buryScript (red.keys d.queue) d.envelope.id (unixMilli now)
      (unixMilli (f.stamp now).at_) data hh.receipt hh.member
    have hframe : MemFrame mem ((mem.releaseUnique j).setJob
        (buryJob j (f.stamp now))) ⟨d.queue, d.envelope.id⟩ := by
      rw [← hkey]
      exact .setJob (by simp) (by simp) (by simp)
    refine simulates_onQueue d.envelope.id h (step_bury hh.leased)
      (hred.trans (RedisQueue.settle_held h.redOpen hname hh.given hrun)) (fun _ _ => rfl) hframe
      ⟨num, ?_⟩ (h.releaseUnique hm hh.stored hh.failure rfl rfl) ?_
    · have hbury : Frame (red.keys d.queue) ((red.keys d.queue).releaseUnique (unixMilli now)
          d.envelope.id d.envelope.id) d.envelope.id := frame_of_eq (by simp) (by simp)
      refine hm.rewrite (((hbury.zrem hh.only.idOf_eq).setJob _).zadd rfl) ?_
        (lookup_setJob_of_key _ _ hkey) hframe.others hh.stored (by simp) (by simp) rfl
        ⟨buryJob_tame htame hf hat, ?_, ?_⟩
      · refine hm.consistent_after (.bury (unixMilli now) d.envelope.id d.receipt
          (unixMilli (f.stamp now).at_) data) hh.given (after_eq hrun) ?_
        simpa using hm.seq_le.trans hm.bound
      · have hself : (buryJob j (f.stamp now)).env.id = d.envelope.id := hid
        rw [hself, zadd_job, setJob_job_self, hhash, buryJob_hash, hdata]
      · have hmember : (buryJob j (f.stamp now)).memberAs (num d.envelope.id) =
            d.envelope.id := hid
        rw [hmember]
        simp [MemoryJob.place, MemoryJob.placedAt, buryJob, score]
    · intro key
      simpa using h.once key
  · refine settle_lost_simulates h hb (step_bury_lost hlost) hred (hlost'.imp_right fun hne => ?_)
    exact (run_of_receipt_ne _ _ (unixMilli now) hne _ _ false _).2.2.2

/-! ## Failed jobs -/

/-- Where a failed job is. -/
theorem MemoryJob.failed_place (hf : j.failure = some f) (n : ℕ) :
    j.place = .failed ∧ j.memberAs n = j.env.id ∧ j.placedAt = f.at_ :=
  ⟨by simp [place, hf], if_pos (by simp [hf]), by simp [placedAt, hf]⟩

/-- The score of an id in the failed set is its job's. -/
theorem Mirrors.lookup_failed (hm : Mirrors c queue N mem k num) (id : String) :
    (k.set .failed).lookup id =
      ((mem.jobs.lookup ⟨queue, id⟩).bind MemoryJob.failure).map fun f => score f.at_ := by
  refine Option.ext fun x => ?_
  constructor
  · intro hx
    obtain ⟨j, hj, hplace, -, rfl⟩ := hm.member hx
    cases hf : j.failure with
    | none => cases hr : j.reserved <;> simp [MemoryJob.place, hf, hr] at hplace
    | some f =>
      rw [(MemoryJob.failed_place hf 0).2.2]
      simp only [idOf] at hj
      simp [hj, hf]
  · intro hx
    obtain ⟨f, hjf, rfl⟩ := Option.map_eq_some_iff.1 hx
    obtain ⟨j, hj, hf⟩ := Option.bind_eq_some_iff.1 hjf
    have hlookup := (hm.stored _ j hj).place
    obtain ⟨hplace, hmember, hat⟩ := MemoryJob.failed_place hf (num id)
    rw [hplace, hmember, hat, (Mirrors.key hj).2] at hlookup
    exact hlookup

/-- **A job is failed on both sides or on neither.** -/
theorem Mirrors.failed_or_not (hm : Mirrors c queue N mem k num) (hopen : mem.closed = false)
    (id : String) :
    (∃ j f, mem.lookupFailed queue id = .ok (j, f) ∧ mem.jobs.lookup ⟨queue, id⟩ = some j ∧
        j.failure = some f ∧ (k.set .failed).lookup id = some (score f.at_)) ∨
      mem.lookupFailed queue id = .error (.notFailed id queue) ∧
        (k.set .failed).lookup id = none := by
  rw [hm.lookup_failed]
  cases hj : mem.jobs.lookup ⟨queue, id⟩ with
  | none => exact .inr ⟨by simp [lookupFailed, hopen, hj], rfl⟩
  | some j =>
    cases hf : j.failure with
    | none => exact .inr ⟨by simp [lookupFailed, hopen, hj, hf], by simp [hf]⟩
    | some f =>
      exact .inl ⟨j, f, by simp [lookupFailed, hopen, hj, hf], rfl, hf, by simp [hf]⟩

/-- The row of a failed job decodes to what memory lists. -/
theorem decodeFailedJob_image {n : ℕ} (htame : j.Tame c) (hf : j.failure = some f) :
    c.decodeFailedJob j.queue j.env.id ((j.hash c n).env.getD "") ((j.hash c n).attempts.getD 0)
      ((j.hash c n).failure.getD "") = .ok (j.failedJob f) := by
  obtain ⟨s, hs, hdecode⟩ := htame.env
  obtain ⟨data, hdata, hfailure⟩ := (htame.failure f hf).1
  have hs' : s ≠ "" := fun h => c.marshal_ne j.env (h ▸ hs)
  have hdata' : data ≠ "" := fun h => c.marshalFailure_ne f (h ▸ hdata)
  simp [Codec.decodeFailedJob, MemoryJob.hash, hs, hf, hdata, hs', hdata', hfailure, hdecode,
    MemoryJob.failedJob, htame.raw]

theorem failedJob_simulates (h : Related c now drawn mem red)
    (hb : ∀ q, drawnAfter drawn (.failedJob queue id) q ≤ 2 ^ 53) (hname : validName queue = true) :
    Simulates c now drawn (.failedJob queue id) mem red := by
  obtain ⟨num, hm⟩ := h.queues queue
  rcases hm.failed_or_not h.memOpen id with ⟨j, f, hmem, hj, hf, hred⟩ | ⟨hmem, hred⟩
  · have hmj := hm.stored _ j hj
    obtain ⟨rfl, rfl⟩ := Mirrors.key hj
    refine simulates_of_eq (.failedJob (j.failedJob f)) h hb ?_ ?_
    · simp [step, failedJob, hmem]
    · simp [RedisQueue.step, RedisQueue.failedJob, h.redOpen, hname, hred, hmj.hash,
        decodeFailedJob_image hmj.tame hf]
  · refine simulates_of_eq (.error (.notFailed id queue)) h hb ?_ ?_
    · simp [step, failedJob, hmem]
    · simp [RedisQueue.step, RedisQueue.failedJob, h.redOpen, hname, hred]

theorem forgetFailed_simulates (h : Related c now drawn mem red)
    (hb : ∀ q, drawnAfter drawn (.forgetFailed queue id) q ≤ 2 ^ 53)
    (hname : validName queue = true) : Simulates c now drawn (.forgetFailed queue id) mem red := by
  obtain ⟨num, hm⟩ := h.queues queue
  have hrun := run_forgetFailedScript (red.keys queue) id
  have hask : red.step c now (.forgetFailed queue id) = red.ask queue (forgetFailedScript id)
      fun n => if n = 0 then .error (.notFailed id queue) else .ok := by
    simp [RedisQueue.step, RedisQueue.forgetFailed, h.redOpen, hname]
  rcases hm.failed_or_not h.memOpen id with ⟨j, f, hmem, hj, hf, hred⟩ | ⟨hmem, hred⟩
  · rw [hred, if_pos (by rfl)] at hrun
    have hframe : MemFrame mem (mem.dropJob ⟨queue, id⟩) ⟨queue, id⟩ := .dropJob rfl rfl le_rfl
    refine simulates_onQueue id h ?_ (hask.trans (RedisQueue.ask_eq hrun _)) (fun _ _ => rfl) hframe
      ⟨num, ?_⟩ (h.sameUniques rfl rfl) h.once
    · simp [step, forgetFailed, hmem]
    · refine hm.remove (p := fun id' => id' = id) ?_ rfl rfl ?_ ?_ ?_
      · exact hm.consistent_after (.forgetFailed id) trivial (after_eq hrun)
          (hm.seq_le.trans hm.bound)
      · intro id'
        split
        · rename_i hid
          rw [hid]
          simp
        · rename_i hid
          exact hframe.others id' hid
      · intro id'
        simp [RedisKeys.setJob, Function.update_apply]
      · intro key m hne
        rw [setJob_set, lookup_zrem_ne]
        rintro ⟨rfl, rfl⟩
        exact hne rfl
  · rw [hred, if_neg (by simp)] at hrun
    refine simulates_of_eq (.error (.notFailed id queue)) h hb ?_ ?_
    · simp [step, forgetFailed, hmem]
    · rw [hask, RedisQueue.ask_eq hrun, RedisQueue.setKeys_keys_eq]
      rfl

theorem retryJob_tame (h : j.Tame c) (hf : j.failure = some f) (hnow : Whole now) :
    (mem.retryJob j now).Tame c where
  env := h.env
  receipt := h.receipt
  available := hnow
  deadline hr := absurd hr (by simp [retryJob, (h.failure f hf).2.2])
  failure := by simp [retryJob]
  held := by
    have hheld := h.held
    by_cases hu : j.unique = "" <;> simp [retryJob, hu, hheld]
  ttl := h.ttl
  raw := h.raw

/-- What `requeue` stores of a failed job. -/
theorem requeued_hash (mem : MemoryQueue) (now : ℤ) {n : ℕ} (h : j.Tame c)
    (hf : j.failure = some f) :
    RedisKeys.JobHash.requeued (j.hash c n) = (mem.retryJob j now).hash c n := by
  have hreceipt : j.receipt = "" := by
    by_contra hne
    have hres := h.receipt.1 hne
    simp [(h.failure f hf).2.2] at hres
  simp only [RedisKeys.JobHash.requeued, ← hreceipt]
  rfl

/-- A failed job queued again, after its claim was renewed on both sides. -/
theorem retry_related (h : Related c now drawn mem red) {q : MemoryQueue}
    (hb : ∀ q, drawnAfter drawn (.retryFailed queue id) q ≤ 2 ^ 53) (hnow : Whole now)
    (hm : Mirrors c queue (drawn queue) mem (red.keys queue) num)
    (hj : mem.jobs.lookup ⟨queue, id⟩ = some j) (hf : j.failure = some f)
    (hmem : mem.step (.retryFailed queue id) (.const now) = (ans, q.setJob (mem.retryJob j now)))
    (hred : red.step c now (.retryFailed queue id) = (ans, red.setKeys queue
      ((k.zrem .failed id).queued id (RedisKeys.JobHash.requeued (k.job id)) (unixMilli now))))
    (hjobs : q.jobs = mem.jobs) (hclosed : q.closed = mem.closed) (hseq : q.seq = mem.seq + 1)
    (honce : q.once = mem.once) (hset : k.set = (red.keys queue).set)
    (hjob : k.job = (red.keys queue).job) (hkseq : k.seq = (red.keys queue).seq)
    (huniques : ∀ queue' key, SameClaim now (q.uniques.lookup ⟨queue', key⟩)
      (((red.setKeys queue k).keys queue').unique.lookup key)) :
    Simulates c now drawn (.retryFailed queue id) mem red := by
  have hmj := hm.stored _ j hj
  have hid := (Mirrors.key hj).2
  have hkey : (mem.retryJob j now).key = ⟨queue, id⟩ :=
    (retryJob_key ..).trans (mem.keyed _ _ hj)
  have hframe : MemFrame mem (q.setJob (mem.retryJob j now)) ⟨queue, id⟩ := by
    rw [← hkey]
    exact .setJob hjobs hclosed (by omega)
  have hfailed : id ∈ (red.keys queue).set .failed := by
    obtain ⟨hplace, hmember, -⟩ := MemoryJob.failed_place hf (num id)
    have hlookup := hmj.place
    rw [hplace, hmember, hid] at hlookup
    exact AList.lookup_isSome.1 (by simp [hlookup])
  have honly : k.OccursOnly id (some (.failed, id)) :=
    (hm.consistent.fits hfailed).2.of_set_eq hset
  refine simulates_onQueue id h hmem hred ?_ hframe ?_ ?_ ?_
  · intro queue' hne
    simp [Op.drawsOn, Ne.symm hne]
  · have hN : drawnAfter drawn (.retryFailed queue id) queue = drawn queue + 1 := by
      simp [drawnAfter, Op.drawsOn]
    have hbq := hb queue
    rw [hN] at hbq ⊢
    refine hm.queued (j := mem.retryJob j now) hid ((frame_of_eq hset hjob).zrem rfl) honly.zrem
      hkseq hbq (lookup_setJob_of_key _ _ hkey) hframe.others hseq rfl
      (retryJob_tame hmj.tame hf hnow) rfl ?_ ?_
    · exact (hmj.tame.failure f hf).2.2
    · rw [hjob, ← hid, hmj.hash, requeued_hash mem now hmj.tame hf]
      rfl
  · intro queue' key
    have hsame := huniques queue' key
    by_cases hq : queue' = queue
    · subst hq
      rw [RedisQueue.setKeys_keys_self] at hsame ⊢
      exact hsame
    · rw [RedisQueue.setKeys_keys_ne _ _ hq] at hsame ⊢
      exact hsame
  · intro key
    rw [setJob_once, honce]
    exact h.once key

theorem MemoryQueue.step_retryFailed (now : ℤ) (hfailed : mem.lookupFailed queue id = .ok (j, f))
    (hu : j.unique ≠ "") :
    mem.step (.retryFailed queue id) (.const now) =
      match (mem.uniques.lookup ⟨queue, j.unique⟩).filter
        fun c => decide (now < c.expires ∧ c.holder ≠ id) with
      | some claim => (.error (.duplicateDispatch queue j.unique claim.holder), mem)
      | none => (.ok, { mem with
          seq := mem.seq + 1
          uniques := mem.uniques.insert ⟨queue, j.unique⟩ ⟨id, now + j.uniqueTTL⟩ }.setJob
            (mem.retryJob j now)) := by
  simp only [step, retryFailed, hfailed, hu, if_false, Clock.const]
  rfl

theorem retryFailed_simulates (h : Related c now drawn mem red)
    (hb : ∀ q, drawnAfter drawn (.retryFailed queue id) q ≤ 2 ^ 53) (hnow : Whole now)
    (hname : validName queue = true) : Simulates c now drawn (.retryFailed queue id) mem red := by
  obtain ⟨num, hm⟩ := h.queues queue
  have hask : red.step c now (.retryFailed queue id) =
      red.ask queue (retryFailedScript (unixMilli now) id (unixMilli now))
        (RedisQueue.retryFailedAnswer queue id (((red.keys queue).job id).unique.getD "")) := by
    simp [RedisQueue.step, RedisQueue.retryFailed, h.redOpen, hname]
  rcases hm.failed_or_not h.memOpen id with ⟨j, f, hmem, hj, hf, hred⟩ | ⟨hmem, hred⟩
  · have hmj := hm.stored _ j hj
    obtain ⟨hq, hid⟩ := Mirrors.key hj
    have hhash := hmj.hash
    rw [hid] at hhash
    obtain ⟨s, hs, -⟩ := hmj.tame.env
    have hrun := run_retryFailedScript (red.keys queue) id (unixMilli now) (unixMilli now)
      (milliseconds j.uniqueTTL) hred (by rw [hhash]; simp [MemoryJob.hash, hs]) (by
        rw [hhash]
        by_cases hu : j.unique = ""
        · simp [MemoryJob.hash, hu]
        · intro _
          obtain ⟨hpos, hdvd⟩ := hmj.tame.ttl hu
          exact ⟨by simp [MemoryJob.hash, hu], milliseconds_pos hdvd hpos⟩)
    by_cases hu : j.unique = ""
    · have hunique : ((red.keys queue).job id).unique = none := by simp [hhash, MemoryJob.hash, hu]
      rw [hunique, run_requeue] at hrun
      refine retry_related h hb hnow hm hj hf (q := { mem with seq := mem.seq + 1 })
        (k := red.keys queue) ?_ (hask.trans (RedisQueue.ask_eq hrun _)) rfl rfl rfl
        rfl rfl rfl rfl (h.sameUniques rfl rfl)
      simp [step, retryFailed, hmem, hu, Clock.const,
        RedisQueue.retryFailedAnswer]
    · have hunique : ((red.keys queue).job id).unique = some j.unique := by
        simp [hhash, MemoryJob.hash, hu]
      obtain ⟨hpos, hdvd⟩ := hmj.tame.ttl hu
      have hlive := (h.uniques queue j.unique).live
      have hget : getKey (red.keys queue).unique (unixMilli now) j.unique =
          RedisString.live (unixMilli now) ((red.keys queue).unique.lookup j.unique) := rfl
      have hholder : (getKey (red.keys queue).unique (unixMilli now) j.unique).filter
          (fun holder => decide (holder ≠ id)) =
          ((mem.uniques.lookup ⟨queue, j.unique⟩).filter
            fun c => decide (now < c.expires ∧ c.holder ≠ id)).map MemoryClaim.holder := by
        rw [hget, hlive]
        cases mem.uniques.lookup ⟨queue, j.unique⟩ with
        | none => rfl
        | some claim =>
          by_cases halive : now < claim.expires <;> by_cases hne : claim.holder = id <;>
            simp [Option.filter, halive, hne]
      simp only [hunique, hholder] at hrun
      have hstep := step_retryFailed now hmem hu
      cases hc : (mem.uniques.lookup ⟨queue, j.unique⟩).filter
          fun c => decide (now < c.expires ∧ c.holder ≠ id) with
      | some claim =>
        simp only [hc, Option.map_some] at hrun hstep
        refine simulates_of_eq _ h hb hstep ?_
        rw [hask, RedisQueue.ask_eq hrun, RedisQueue.setKeys_keys_eq, hunique]
        rfl
      | none =>
        simp only [hc, Option.map_none, run_requeue] at hrun hstep
        refine retry_related h hb hnow hm hj hf hstep (hask.trans (RedisQueue.ask_eq hrun _)) rfl
          rfl rfl rfl rfl rfl rfl fun queue' key => ?_
        by_cases hqueue : queue' = queue
        · subst hqueue
          rw [RedisQueue.setKeys_keys_self]
          exact .insert id hnow hdvd hpos (by simp) (h.uniques queue' key)
        · have hne : (⟨queue', key⟩ : MemoryKey) ≠ ⟨queue, j.unique⟩ :=
            fun heq => hqueue (congrArg MemoryKey.queue heq)
          rw [RedisQueue.setKeys_keys_ne _ _ hqueue, AList.lookup_insert_ne hne]
          exact h.uniques queue' key
  · have hrun : (retryFailedScript (unixMilli now) id (unixMilli now)).run (red.keys queue) =
        .ok .notFailed (red.keys queue) := by
      simp [retryFailedScript, hred]
    refine simulates_of_eq (.error (.notFailed id queue)) h hb ?_ ?_
    · simp [step, retryFailed, hmem]
    · rw [hask, RedisQueue.ask_eq hrun, RedisQueue.setKeys_keys_eq]
      rfl

/-! ## Once -/

variable {t : Table String RedisString} {token : String}

/-- An operation on the `Once` keys. -/
theorem simulates_onOnce (h : Related c now drawn mem red)
    (hmem : mem.step op (.const now) = (ans, mem'))
    (hred : red.step c now op = (ans, { red with once := t }))
    (hdraws : ∀ queue, op.drawsOn queue = false) (hjobs : mem'.jobs = mem.jobs)
    (hseq : mem'.seq = mem.seq) (hclosed : mem'.closed = mem.closed)
    (huniques : ∀ queue key, SameClaim now (mem'.uniques.lookup ⟨queue, key⟩)
      ((red.keys queue).unique.lookup key))
    (honce : ∀ key, SameClaim now (mem'.once.lookup key) (t.lookup key)) :
    Simulates c now drawn op mem red := by
  unfold Simulates
  rw [hmem, hred]
  refine ⟨rfl, hclosed.trans h.memOpen, h.redOpen, fun queue => ?_, huniques, honce⟩
  obtain ⟨num, hm⟩ := h.queues queue
  have hN : drawnAfter drawn op queue = drawn queue := by simp [drawnAfter, hdraws]
  rw [hN]
  exact ⟨num, hm.of_eq (fun _ => by rw [hjobs]) hseq.ge rfl rfl rfl le_rfl hm.bound⟩

theorem askOnce_eq {α : Type} {s : Script (Table String RedisString) α} {a : α}
    (hopen : red.closed = false) (hrun : s.run red.once = .ok a t) (f : α → Answer) :
    red.askOnce s f = (f a, { red with once := t }) := by
  simp [RedisQueue.askOnce, hopen, hrun]

/-- The holder of a `Once` key in force, on both sides. -/
theorem Related.onceHolder (h : Related c now drawn mem red) (key : String) :
    getKey red.once (unixMilli now) key =
      ((mem.once.lookup key).filter fun claim => decide (now < claim.expires)).map
        MemoryClaim.holder :=
  (h.once key).live

theorem MemoryQueue.step_beginOnce (mem : MemoryQueue) (now : ℤ) (key token : String) (lock : ℤ) :
    mem.step (.beginOnce key token lock) (.const now) =
      match ((mem.sweepClaims now).once.lookup key).filter
        fun claim => decide (now < claim.expires) with
      | some claim =>
        (.once (if claim.holder = onceDoneMarker then .done else .busy), mem.sweepClaims now)
      | none => (.once .acquired, { mem.sweepClaims now with
          once := (mem.sweepClaims now).once.insert key ⟨token, now + lock⟩ }) := rfl

theorem MemoryQueue.step_finishOnce (mem : MemoryQueue) (now : ℤ) (key token : String) (keep : ℤ) :
    mem.step (.finishOnce key token keep) (.const now) =
      match (mem.once.lookup key).filter fun c => decide (c.holder = token ∧ now < c.expires) with
      | some _ => (.ok, { mem with once := mem.once.insert key ⟨onceDoneMarker, now + keep⟩ })
      | none => (.error (.onceLost key), mem) := rfl

theorem beginOnce_simulates (h : Related c now drawn mem red) {lock : ℤ} (hnow : Whole now)
    (hpos : 0 < lock) (hdvd : 10 ^ 6 ∣ lock) :
    Simulates c now drawn (.beginOnce key token lock) mem red := by
  have hs := h.sweep
  have hrun := run_onceBeginScript red.once (unixMilli now) key token (milliseconds lock)
  rw [hs.onceHolder, if_neg (not_le.2 (milliseconds_pos hdvd hpos))] at hrun
  have hstep := mem.step_beginOnce now key token lock
  cases hc : ((mem.sweepClaims now).once.lookup key).filter
      fun claim => decide (now < claim.expires) with
  | some claim =>
    simp only [hc, Option.map_some] at hrun hstep
    exact simulates_onOnce h hstep (askOnce_eq h.redOpen hrun _) (fun _ => rfl) (by simp) (by simp)
      (by simp) hs.uniques hs.once
  | none =>
    simp only [hc, Option.map_none] at hrun hstep
    exact simulates_onOnce h hstep (askOnce_eq h.redOpen hrun _) (fun _ => rfl) (by simp) (by simp)
      (by simp) hs.uniques fun key' => .insert token hnow hdvd hpos Iff.rfl (hs.once key')

theorem finishOnce_simulates (h : Related c now drawn mem red) {keep : ℤ} (hnow : Whole now)
    (hpos : 0 < keep) (hdvd : 10 ^ 6 ∣ keep)
    (hb : ∀ q, drawnAfter drawn (.finishOnce key token keep) q ≤ 2 ^ 53) :
    Simulates c now drawn (.finishOnce key token keep) mem red := by
  have hrun := run_onceFinishScript red.once (unixMilli now) key token (milliseconds keep)
  rw [h.onceHolder, if_neg (not_le.2 (milliseconds_pos hdvd hpos))] at hrun
  have hstep := mem.step_finishOnce now key token keep
  have hholds : ((mem.once.lookup key).filter fun claim => decide (now < claim.expires)).map
      MemoryClaim.holder = some token ↔ ∃ claim, (mem.once.lookup key).filter
        (fun c => decide (c.holder = token ∧ now < c.expires)) = some claim := by
    cases mem.once.lookup key with
    | none => simp
    | some claim =>
      by_cases halive : now < claim.expires <;> by_cases hholder : claim.holder = token <;>
        simp [Option.filter, halive, hholder]
  cases hc : (mem.once.lookup key).filter
      fun c => decide (c.holder = token ∧ now < c.expires) with
  | some claim =>
    rw [if_neg (not_not.2 (hholds.2 ⟨claim, hc⟩))] at hrun
    simp only [hc] at hstep
    exact simulates_onOnce h hstep (askOnce_eq h.redOpen hrun _) (fun _ => rfl) rfl rfl rfl h.uniques
      fun key' => .insert onceDoneMarker hnow hdvd hpos Iff.rfl (h.once key')
  | none =>
    have hnot : ((mem.once.lookup key).filter fun claim => decide (now < claim.expires)).map
        MemoryClaim.holder ≠ some token := by
      rw [Ne, hholds, hc]
      simp
    rw [if_pos hnot] at hrun
    simp only [hc] at hstep
    exact simulates_of_eq _ h hb hstep (askOnce_eq h.redOpen hrun _)

theorem abandonOnce_simulates (h : Related c now drawn mem red) :
    Simulates c now drawn (.abandonOnce key token) mem red := by
  have hrun := run_onceAbandonScript red.once (unixMilli now) key token
  have hmem : ∃ once, mem.step (.abandonOnce key token) (.const now) = (.ok, { mem with once := once })
      ∧ ∀ key', once.lookup key' = if key' = key then
        (mem.once.lookup key').filter fun claim => decide (claim.holder ≠ token)
        else mem.once.lookup key' := by
    cases hc : (mem.once.lookup key).filter fun c => decide (c.holder = token) with
    | some claim =>
      obtain ⟨hlookup, hholder⟩ := Option.filter_eq_some_iff.1 hc
      refine ⟨mem.once.erase key, ?_, fun key' => ?_⟩
      · simp [step, abandonOnce, hc]
      · by_cases hkey : key' = key
        · subst hkey
          simpa [hlookup, Option.filter] using hholder
        · rw [if_neg hkey, AList.lookup_erase_ne hkey]
    | none =>
      refine ⟨mem.once, ?_, fun key' => ?_⟩
      · simp [step, abandonOnce, hc]
      · by_cases hkey : key' = key
        · subst hkey
          rw [if_pos rfl]
          cases hl : mem.once.lookup key' with
          | none => rfl
          | some claim =>
            rw [hl] at hc
            have hne : claim.holder ≠ token := by simpa [Option.filter] using hc
            simp [Option.filter, hne]
        · rw [if_neg hkey]
  obtain ⟨once, hstep, honce⟩ := hmem
  refine simulates_onOnce h hstep (askOnce_eq h.redOpen hrun _) (fun _ => rfl) rfl rfl rfl h.uniques
    fun key' => ?_
  change SameClaim now (once.lookup key') _
  rw [honce]
  by_cases hkey : key' = key
  · subst hkey
    have hrelease := (h.once key').release token
    have hget : getKey red.once (unixMilli now) key' =
        RedisString.live (unixMilli now) (red.once.lookup key') := rfl
    rw [if_pos rfl, hget]
    split <;> simpa [*] using hrelease
  · rw [if_neg hkey]
    split
    · rw [AList.lookup_erase_ne hkey]
      exact h.once key'
    · exact h.once key'

end Settling

end Gombit.Jobs
