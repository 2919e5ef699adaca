import Gombit.Jobs.Mirror

/-!
# The drivers answer alike, operation by operation

For each operation that changes a job or a claim: from related states, at the same instant, the
two drivers give the same answer and are in related states again (`Simulates`). What one driver
does to the job's record in a map, the other does to its hash, its member and its claim.
-/

namespace Gombit.Jobs

open Redis RedisKeys MemoryQueue

/-- Whether an operation may draw a sequence number on the queue. -/
def Op.drawsOn (queue : String) : Op → Bool
  | .push queue' _ _ => queue' = queue
  | .pushUnique queue' _ _ _ => queue' = queue
  | .release d _ => d.queue = queue
  | .postpone d _ => d.queue = queue
  | .retryFailed queue' _ => queue' = queue
  | _ => false

/-- How many numbers may have been drawn after the operation. -/
def drawnAfter (drawn : String → ℕ) (op : Op) (queue : String) : ℕ :=
  drawn queue + if op.drawsOn queue then 1 else 0

/-- The drivers answer the operation alike and stay related. -/
def Simulates (c : Codec) (now : ℤ) (drawn : String → ℕ) (op : Op) (mem : MemoryQueue)
    (red : RedisQueue) : Prop :=
  (mem.step op (.const now)).1 = (red.step c now op).1 ∧
    Related c now (drawnAfter drawn op) (mem.step op (.const now)).2 (red.step c now op).2

variable {j : MemoryJob} {queue receipt : String} {num : String → ℕ} {env : Envelope}
  {at_ lease : ℤ}

section Steps

variable {c : Codec} {now : ℤ} {drawn : String → ℕ} {op : Op} {mem mem' : MemoryQueue}
  {red : RedisQueue}

/-- The operation changed nothing. -/
theorem Related.draws (h : Related c now drawn mem red)
    (hb : ∀ queue, drawnAfter drawn op queue ≤ 2 ^ 53) :
    Related c now (drawnAfter drawn op) mem red where
  memOpen := h.memOpen
  redOpen := h.redOpen
  queues queue := by
    obtain ⟨num, hm⟩ := h.queues queue
    exact ⟨num, hm.of_eq (fun _ => rfl) le_rfl rfl rfl rfl (Nat.le_add_right _ _) (hb queue)⟩
  uniques := h.uniques
  once := h.once

theorem simulates_of_eq (ans : Answer) (h : Related c now drawn mem red)
    (hb : ∀ queue, drawnAfter drawn op queue ≤ 2 ^ 53)
    (hmem : mem.step op (.const now) = (ans, mem)) (hred : red.step c now op = (ans, red)) :
    Simulates c now drawn op mem red := by
  unfold Simulates
  rw [hmem, hred]
  exact ⟨rfl, h.draws hb⟩

/-- A change of the in-memory queue that is about the job under `key` and the claims. -/
structure MemFrame (mem mem' : MemoryQueue) (key : MemoryKey) : Prop where
  jobs : ∀ k ≠ key, mem'.jobs.lookup k = mem.jobs.lookup k
  closed : mem'.closed = mem.closed
  seq : mem.seq ≤ mem'.seq

variable {q : MemoryQueue} {id data : String}

theorem MemFrame.setJob (hjobs : q.jobs = mem.jobs)
    (hclosed : q.closed = mem.closed) (hseq : mem.seq ≤ q.seq) :
    MemFrame mem (q.setJob j) j.key where
  jobs k hk := by rw [lookup_setJob_ne _ _ hk, hjobs]
  closed := hclosed
  seq := hseq

theorem MemFrame.dropJob {key : MemoryKey} (hjobs : q.jobs = mem.jobs)
    (hclosed : q.closed = mem.closed) (hseq : mem.seq ≤ q.seq) :
    MemFrame mem (q.dropJob key) key where
  jobs k hk := by rw [lookup_dropJob_ne _ hk, hjobs]
  closed := hclosed
  seq := hseq

theorem MemFrame.others (h : MemFrame mem mem' ⟨queue, id⟩) :
    ∀ id' ≠ id, mem'.jobs.lookup ⟨queue, id'⟩ = mem.jobs.lookup ⟨queue, id'⟩ :=
  fun _ hid => h.jobs _ fun heq => hid (congrArg MemoryKey.id heq)

variable {k : RedisKeys} {u : Option UniqueKey}

/-- An operation on one job of one queue. -/
theorem simulates_onQueue {ans : Answer} (id : String) (h : Related c now drawn mem red)
    (hmem : mem.step op (.const now) = (ans, mem'))
    (hred : red.step c now op = (ans, red.setKeys queue k))
    (hdraws : ∀ queue' ≠ queue, op.drawsOn queue' = false) (hframe : MemFrame mem mem' ⟨queue, id⟩)
    (hmirrors : ∃ num, Mirrors c queue (drawnAfter drawn op queue) mem' k num)
    (huniques : ∀ queue' key, SameClaim now (mem'.uniques.lookup ⟨queue', key⟩)
      (((red.setKeys queue k).keys queue').unique.lookup key))
    (honce : ∀ key, SameClaim now (mem'.once.lookup key) (red.once.lookup key)) :
    Simulates c now drawn op mem red := by
  unfold Simulates
  rw [hmem, hred]
  refine ⟨rfl, ?_⟩
  refine h.onQueue hframe.closed hframe.seq ?_ ?_ hmirrors ?_ ?_ honce
  · intro queue' hq id'
    exact hframe.jobs _ fun heq => hq (congrArg MemoryKey.queue heq)
  · intro queue' hq
    simp [drawnAfter, hdraws queue' hq]
  · intro queue' hq key
    have := huniques queue' key
    rwa [RedisQueue.setKeys_keys_ne _ _ hq] at this
  · intro key
    have := huniques queue key
    rwa [RedisQueue.setKeys_keys_self] at this

/-- No claim of the queue changed. -/
theorem Related.sameUniques (h : Related c now drawn mem red) (hu : mem'.uniques = mem.uniques)
    (hk : k.unique = (red.keys queue).unique) (queue' key : String) :
    SameClaim now (mem'.uniques.lookup ⟨queue', key⟩)
      (((red.setKeys queue k).keys queue').unique.lookup key) := by
  rw [hu]
  by_cases hq : queue' = queue
  · subst hq
    rw [RedisQueue.setKeys_keys_self, hk]
    exact h.uniques queue' key
  · rw [RedisQueue.setKeys_keys_ne _ _ hq]
    exact h.uniques queue' key

/-! ## Pushing -/

/-- The image of a job that was just queued. -/
theorem Mirrored.queued {h : JobHash} (htame : j.Tame c) (hfail : j.failure = none)
    (hres : j.reserved = false)
    (hhash : { h with member := some (member (k.seq + 1) j.env.id) } = j.hash c (k.seq + 1)) :
    Mirrored c (k.queued j.env.id h (unixMilli j.availableAt)) (k.seq + 1) j where
  tame := htame
  hash := by simpa [RedisKeys.queued] using hhash
  place := by
    have hmember : j.memberAs (k.seq + 1) = member (k.seq + 1) j.env.id := by
      simp [MemoryJob.memberAs, hfail]
    rw [hmember]
    simp [MemoryJob.place, MemoryJob.placedAt, MemoryJob.readyAt, hfail, hres, RedisKeys.queued,
      score]

/-- A job queued in place of nothing, or of itself, on both sides. -/
theorem Mirrors.queued {N : ℕ} {k₁ : RedisKeys} {h : JobHash}
    (hm : Mirrors c queue N mem k num) (hid : j.env.id = id) (hframe : Frame k k₁ id)
    (hnone : k₁.OccursOnly id none) (hkseq : k₁.seq = k.seq) (hbound : N + 1 ≤ 2 ^ 53)
    (hself : mem'.jobs.lookup ⟨queue, id⟩ = some j)
    (hothers : ∀ id' ≠ id, mem'.jobs.lookup ⟨queue, id'⟩ = mem.jobs.lookup ⟨queue, id'⟩)
    (hseq : mem'.seq = mem.seq + 1) (hjseq : j.seq = mem.seq + 1) (htame : j.Tame c)
    (hfail : j.failure = none) (hres : j.reserved = false)
    (hhash : { h with member := some (member (k.seq + 1) id) } = j.hash c (k.seq + 1)) :
    ∃ num, Mirrors c queue (N + 1) mem' (k₁.queued id h (unixMilli j.availableAt)) num := by
  subst hid
  have hle := hm.seq_le
  have hlimit : k₁.seq + 1 < seqLimit := lt_seqLimit (by omega)
  have hfields : h.env = c.marshal j.env ∧ h.receipt = some j.receipt ∧ h.failure = none := by
    have hlast : h.failure = j.failure.bind c.marshalFailure := congrArg JobHash.failure hhash
    rw [hfail] at hlast
    exact ⟨congrArg JobHash.env hhash, congrArg JobHash.receipt hhash, hlast⟩
  obtain ⟨s, hs, -⟩ := htame.env
  have hreceipt : j.receipt = "" := by
    by_contra hne
    rw [htame.receipt.1 hne] at hres
    cases hres
  -- the job's hash lost its envelope nowhere: only the place matters for consistency
  have hcons : (k₁.queued j.env.id h (unixMilli j.availableAt)).Consistent := by
    refine hm.consistent.of_frame (hframe.queued hlimit h _)
      (.present ?_ (hnone.queued hlimit h _))
    have hjob : (k₁.queued j.env.id h (unixMilli j.availableAt)).job j.env.id =
        { h with member := some (member (k₁.seq + 1) j.env.id) } := by simp [RedisKeys.queued]
    rw [hjob]
    exact ⟨by rw [hfields.1, hs]; rfl, fun _ => rfl, by simp,
      ⟨"", by rw [hfields.2.1, hreceipt], by simp⟩, by simp [hfields.2.2]⟩
  rw [← hkseq] at hhash
  refine ⟨_, hm.renumber (hframe.queued hlimit h _) hcons hself hothers ?_ hbound hseq hjseq ?_⟩
  · simp [RedisKeys.queued, hkseq]
  · rw [← hkseq]
    exact .queued htame hfail hres hhash

theorem newJob_tame (henv : c.Keeps { env with attempt := 0 }) (hnow : Whole now)
    (hat : at_ = 0 ∨ Whole at_) (hu : ∀ v, u = some v → v.key ≠ "" ∧ 0 < v.ttl ∧ 10 ^ 6 ∣ v.ttl) :
    (mem.newJob now queue env at_ u).Tame c where
  env := henv
  receipt := by simp [newJob]
  available := Whole.atLeast hat hnow
  deadline := by simp [newJob]
  failure := by simp [newJob]
  held := by
    cases u with
    | none => rfl
    | some v =>
      have hkey := (hu v rfl).1
      cases hd : v.untilDone <;> simp [newJob, Option.filter, hd, hkey]
  ttl := by
    cases u with
    | none => simp [newJob]
    | some v =>
      obtain ⟨hkey, hpos, hdvd⟩ := hu v rfl
      cases hd : v.untilDone
      · simp [newJob, Option.filter, hd]
      · intro _
        simpa [newJob, Option.filter, hd] using ⟨hpos, hdvd⟩
  raw := rfl

theorem newJob_hash {n : ℕ}
    (hdata : c.marshal { env with attempt := 0 } = some data) (hu : ∀ v, u = some v → v.key ≠ "") :
    { JobHash.absent with
      env := some data, attempts := some 0, receipt := some "", member := some (member n env.id)
      unique := (u.filter UniqueKey.untilDone).map UniqueKey.key
      uniqueTTL := (u.filter UniqueKey.untilDone).map fun v => milliseconds v.ttl } =
      (mem.newJob now queue env at_ u).hash c n := by
  cases u with
  | none => simp [MemoryJob.hash, newJob, hdata, JobHash.absent]
  | some v =>
    have hkey := hu v rfl
    cases hd : v.untilDone <;>
      simp [MemoryJob.hash, newJob, hdata, JobHash.absent, Option.filter, hd, hkey]

/-- The job under an id is stored on both sides or on neither. -/
theorem Mirrors.absent_iff {N : ℕ} (hm : Mirrors c queue N mem k num) :
    k.job id = .absent ↔ mem.jobs.lookup ⟨queue, id⟩ = none := by
  refine ⟨fun habs => ?_, hm.missing id⟩
  cases hj : mem.jobs.lookup ⟨queue, id⟩ with
  | none => rfl
  | some j =>
    have hhash := (hm.stored id j hj).hash
    rw [(Mirrors.key hj).2, habs] at hhash
    cases congrArg JobHash.attempts hhash

/-- The data with the claim of a push, when it makes one. -/
def claimedFor (k : RedisKeys) (now : ℤ) (id : String) : Option UniqueKey → RedisKeys
  | none => k
  | some u => k.claimed (unixMilli now) u.key id (milliseconds u.ttl)

@[simp] theorem claimedFor_set (k : RedisKeys) (id : String) (u : Option UniqueKey) :
    (claimedFor k now id u).set = k.set := by
  cases u <;> rfl

@[simp] theorem claimedFor_job (k : RedisKeys) (id : String) (u : Option UniqueKey) :
    (claimedFor k now id u).job = k.job := by
  cases u <;> rfl

@[simp] theorem claimedFor_seq (k : RedisKeys) (id : String) (u : Option UniqueKey) :
    (claimedFor k now id u).seq = k.seq := by
  cases u <;> rfl

/-- A new job, with its claim, on both sides. -/
theorem enqueue_related (op : Op) (h : Related c now drawn mem red)
    (hdraws : ∀ q, op.drawsOn q = decide (queue = q)) (hb : ∀ q, drawnAfter drawn op q ≤ 2 ^ 53)
    (hnow : Whole now) (hat : at_ = 0 ∨ Whole at_) (henv : c.Keeps { env with attempt := 0 })
    (hdata : c.marshal { env with attempt := 0 } = some data)
    (hu : ∀ v, u = some v → v.key ≠ "" ∧ 0 < v.ttl ∧ 10 ^ 6 ∣ v.ttl)
    (habs : (red.keys queue).job env.id = .absent) :
    (mem.enqueue now queue env at_ u).1 = .ok ∧
      Related c now (drawnAfter drawn op) (mem.enqueue now queue env at_ u).2
        (red.setKeys queue ((claimedFor (red.keys queue) now env.id u).queued env.id
          { JobHash.absent with
            env := some data, attempts := some 0, receipt := some ""
            unique := (u.filter UniqueKey.untilDone).map UniqueKey.key
            uniqueTTL := (u.filter UniqueKey.untilDone).map fun v => milliseconds v.ttl }
          (unixMilli (atLeast at_ now)))) := by
  obtain ⟨num, hm⟩ := h.queues queue
  have hnone := hm.absent_iff.1 habs
  have hframe : MemFrame mem (mem.enqueue now queue env at_ u).2 ⟨queue, env.id⟩ := by
    simp only [enqueue, hnone, Option.isSome_none, Bool.false_eq_true, if_false]
    exact .setJob rfl rfl (Nat.le_succ _)
  simp only [enqueue, hnone, Option.isSome_none, Bool.false_eq_true, if_false,
    true_and] at hframe ⊢
  have hN : drawnAfter drawn op queue = drawn queue + 1 := by simp [drawnAfter, hdraws]
  have hbq := hb queue
  rw [hN] at hbq
  refine h.onQueue rfl hframe.seq ?_ ?_ ?_ ?_ ?_ h.once
  · intro queue' hq id'
    exact hframe.jobs _ fun heq => hq (congrArg MemoryKey.queue heq)
  · intro queue' hq
    simp [drawnAfter, hdraws, Ne.symm hq]
  · rw [hN]
    exact hm.queued (j := mem.newJob now queue env at_ u) rfl (frame_of_eq (by simp) (by simp))
      ((nowhere_of_absent hm.consistent habs).of_set_eq (by simp)) (by simp) hbq
      (lookup_setJob_of_key _ _ rfl) hframe.others rfl rfl
      (newJob_tame henv hnow hat hu) rfl rfl (newJob_hash (u := u) hdata fun v hv => (hu v hv).1)
  · intro queue' hq key
    cases u with
    | none => exact h.uniques queue' key
    | some v =>
      have hne : (⟨queue', key⟩ : MemoryKey) ≠ ⟨queue, v.key⟩ :=
        fun heq => hq (congrArg MemoryKey.queue heq)
      rw [setJob_uniques, AList.lookup_insert_ne hne]
      exact h.uniques queue' key
  · intro key
    cases u with
    | none => exact h.uniques queue key
    | some v =>
      obtain ⟨-, hpos, hdvd⟩ := hu v rfl
      exact .insert env.id hnow hdvd hpos (by simp) (h.uniques queue key)

/-- The id is taken, on both sides. -/
theorem enqueue_duplicate (h : Related c now drawn mem red)
    (habs : (red.keys queue).job env.id ≠ .absent) :
    mem.enqueue now queue env at_ u = (.error (.duplicateJob env.id queue), mem) := by
  obtain ⟨num, hm⟩ := h.queues queue
  refine if_pos ?_
  rw [← Option.ne_none_iff_isSome]
  exact fun hnone => habs (hm.absent_iff.2 hnone)

theorem push_simulates (h : Related c now drawn mem red)
    (hb : ∀ q, drawnAfter drawn (.push queue env at_) q ≤ 2 ^ 53) (hnow : Whole now)
    (hname : validName queue = true) (hid : env.id ≠ "") (hat : at_ = 0 ∨ Whole at_)
    (henv : c.Keeps { env with attempt := 0 }) :
    Simulates c now drawn (.push queue env at_) mem red := by
  obtain ⟨data, hdata, -⟩ := id henv
  have hrun := run_pushScript (red.keys queue) env.id data (unixMilli (atLeast at_ now))
  have hred : red.step c now (.push queue env at_) = red.ask queue
      (pushScript data (unixMilli (atLeast at_ now)) env.id) fun added =>
        if added = 0 then .error (.duplicateJob env.id queue) else .ok := by
    simp [RedisQueue.step, RedisQueue.push, h.redOpen, hname, hid, hdata]
  have hmem : mem.step (.push queue env at_) (.const now) = mem.enqueue now queue env at_ none := by
    simp [step, push, h.memOpen, hname, hid, Clock.const]
  unfold Simulates
  by_cases habs : (red.keys queue).job env.id = .absent
  · rw [if_pos habs] at hrun
    rw [hred, hmem, RedisQueue.ask_eq hrun]
    exact enqueue_related (u := none) _ h (fun _ => rfl) hb hnow hat henv hdata (by simp) habs
  · rw [if_neg habs] at hrun
    rw [hred, hmem, RedisQueue.ask_eq hrun, RedisQueue.setKeys_keys_eq, enqueue_duplicate h habs]
    exact ⟨rfl, h.draws hb⟩

/-- A sweep keeps the states related. -/
theorem Related.sweep (h : Related c now drawn mem red) :
    Related c now drawn (mem.sweepClaims now) red where
  memOpen := by simp [h.memOpen]
  redOpen := h.redOpen
  queues queue := by
    obtain ⟨num, hm⟩ := h.queues queue
    exact ⟨num, hm.of_eq (fun _ => by simp) (by simp) rfl rfl rfl le_rfl hm.bound⟩
  uniques queue key := by
    unfold sweepClaims
    split
    · exact h.uniques queue key
    · rw [Table.lookup_eraseIf]
      exact (h.uniques queue key).sweep
  once key := by
    unfold sweepClaims
    split
    · exact h.once key
    · rw [Table.lookup_eraseIf]
      exact (h.once key).sweep

theorem MemoryQueue.step_pushUnique (mem : MemoryQueue) (now : ℤ) (at_ : ℤ) {u : UniqueKey}
    (hopen : mem.closed = false) (hname : validName queue = true) (hid : env.id ≠ "")
    (hvalid : u.validate = none) :
    mem.step (.pushUnique queue env at_ u) (.const now) =
      match ((mem.sweepClaims now).uniques.lookup ⟨queue, u.key⟩).filter
          fun claim => decide (now < claim.expires) with
      | some claim => (.error (.duplicateDispatch queue u.key claim.holder), mem.sweepClaims now)
      | none => (mem.sweepClaims now).enqueue now queue env at_ (some u) := by
  simp only [step, pushUnique, hvalid, push, hname,
    Bool.not_true, Bool.false_eq_true, if_false, hid, hopen, Clock.const]
  cases (mem.sweepClaims now).uniques.lookup ⟨queue, u.key⟩ with
  | none => rfl
  | some claim => by_cases hlt : now < claim.expires <;> simp [Option.filter, hlt]

theorem pushUnique_simulates (h : Related c now drawn mem red) {u : UniqueKey}
    (hb : ∀ q, drawnAfter drawn (.pushUnique queue env at_ u) q ≤ 2 ^ 53) (hnow : Whole now)
    (hname : validName queue = true) (hid : env.id ≠ "") (hat : at_ = 0 ∨ Whole at_)
    (henv : c.Keeps { env with attempt := 0 }) (hdvd : 10 ^ 6 ∣ u.ttl) :
    Simulates c now drawn (.pushUnique queue env at_ u) mem red := by
  obtain ⟨data, hdata, -⟩ := id henv
  cases hv : u.validate with
  | some e =>
    refine simulates_of_eq (.error e) h hb ?_ ?_
    · simp [step, pushUnique, hv]
    · simp [RedisQueue.step, RedisQueue.pushUnique, h.redOpen, hname, hid, hv]
  | none =>
    have hvalid : u.key ≠ "" ∧ 0 < u.ttl := by
      unfold UniqueKey.validate at hv
      split_ifs at hv with hkey httl
      exact ⟨hkey, not_le.1 httl⟩
    have hs := h.sweep
    have hlive := (hs.uniques queue u.key).live
    have hrun := run_pushUniqueScript (red.keys queue) env.id (unixMilli now) data
      (unixMilli (atLeast at_ now)) u.key u.untilDone (milliseconds_pos hdvd hvalid.2)
    have hred : red.step c now (.pushUnique queue env at_ u) = red.ask queue
        (pushUniqueScript (unixMilli now) data (unixMilli (atLeast at_ now)) env.id u.key
          (milliseconds u.ttl) u.untilDone) (RedisQueue.pushUniqueAnswer queue env.id u.key) := by
      simp [RedisQueue.step, RedisQueue.pushUnique, h.redOpen, hname, hid, hv, hdata]
    have hmem := mem.step_pushUnique now at_ h.memOpen hname hid hv
    have hkey : getKey (red.keys queue).unique (unixMilli now) u.key =
        RedisString.live (unixMilli now) ((red.keys queue).unique.lookup u.key) := rfl
    rw [hkey, hlive] at hrun
    unfold Simulates
    cases hc : ((mem.sweepClaims now).uniques.lookup ⟨queue, u.key⟩).filter
        fun claim => decide (now < claim.expires) with
    | some claim =>
      simp only [hc, Option.map_some] at hrun hmem
      rw [hred, hmem, RedisQueue.ask_eq hrun, RedisQueue.setKeys_keys_eq]
      exact ⟨rfl, hs.draws hb⟩
    | none =>
      simp only [hc, Option.map_none] at hrun hmem
      by_cases habs : (red.keys queue).job env.id = .absent
      · rw [if_pos habs] at hrun
        rw [hred, hmem, RedisQueue.ask_eq hrun]
        have hpush := enqueue_related (u := some u) (.pushUnique queue env at_ u) hs
          (fun _ => rfl) hb hnow hat henv hdata (by rintro v ⟨⟩; exact ⟨hvalid.1, hvalid.2, hdvd⟩)
          habs
        cases hd : u.untilDone <;>
          simpa [Option.filter, hd, claimedFor, RedisQueue.pushUniqueAnswer] using hpush
      · rw [if_neg habs] at hrun
        rw [hred, hmem, RedisQueue.ask_eq hrun, RedisQueue.setKeys_keys_eq,
          enqueue_duplicate hs habs]
        exact ⟨rfl, hs.draws hb⟩

/-! ## Leasing -/

section Pick

variable {queue : String} {N : ℕ} {k : RedisKeys} {num : String → ℕ}

/-- A member of a set stands for a job of the in-memory queue, at its place. -/
theorem Mirrors.member (hm : Mirrors c queue N mem k num) {key : SetKey} {m : String} {x : ℤ}
    (hx : (k.set key).lookup m = some x) :
    ∃ j, mem.jobs.lookup ⟨queue, idOf key m⟩ = some j ∧ key = j.place ∧
      m = j.memberAs (num (idOf key m)) ∧ x = score j.placedAt := by
  have hmem : m ∈ k.set key := AList.lookup_isSome.1 (by simp [hx])
  obtain ⟨-, honly⟩ := hm.consistent.fits hmem
  cases hj : mem.jobs.lookup ⟨queue, idOf key m⟩ with
  | none => exact absurd (hm.missing _ hj) (hm.consistent.exists hmem)
  | some j =>
    have hplace := (hm.stored _ j hj).place
    have hid : idOf j.place (j.memberAs (num (idOf key m))) = idOf key m := by
      rw [MemoryJob.idOf_memberAs (hm.num_le hj), (Mirrors.key hj).2]
    have hat := (honly j.place (j.memberAs (num (idOf key m)))).1
      ⟨AList.lookup_isSome.1 (by simp [hplace]), hid⟩
    simp only [Option.some.injEq, Prod.mk.injEq] at hat
    obtain ⟨hkey, hmember⟩ := hat
    refine ⟨j, rfl, hkey, hmember, ?_⟩
    rw [← hkey, ← hmember, hx] at hplace
    exact Option.some.inj hplace

theorem failure_of_place (h : j.place ≠ .failed) : j.failure = none := by
  by_contra hf
  exact h (by simp [MemoryJob.place, Option.isSome_iff_ne_none.2 hf])

theorem placedAt_eq (h : j.failure = none) : j.placedAt = j.readyAt := by
  simp [MemoryJob.placedAt, h]

theorem available_iff (h : j.failure = none) : j.available now = true ↔ j.readyAt ≤ now := by
  cases hr : j.reserved <;> simp [MemoryJob.available, MemoryJob.readyAt, h, hr]

/-- Of two jobs that are due, the one whose member comes first became available first. -/
theorem Mirrors.before_of_le (hm : Mirrors c queue N mem k num) (hnow : Whole now)
    (hearly : unixMilli now < 2 ^ 53) {id' : String} {i : MemoryJob}
    (hi : mem.jobs.lookup ⟨queue, id⟩ = some i) (hj : mem.jobs.lookup ⟨queue, id'⟩ = some j)
    (hne : id ≠ id') (hfi : i.failure = none) (hfj : j.failure = none) (hdi : i.readyAt ≤ now)
    (hdj : j.readyAt ≤ now)
    (hle : toLex (score i.placedAt, i.memberAs (num id)) ≤ toLex (score j.placedAt, j.memberAs (num id'))) :
    i.before j = true := by
  have hwi := (hm.stored id i hi).tame.readyAt
  have hwj := (hm.stored id' j hj).tame.readyAt
  have hexact : ∀ {t}, Whole t → t ≤ now → score t = unixMilli t := by
    intro t ht hle
    have := (ht.le_iff hnow).2 hle
    exact ht.score_eq (by omega)
  rw [placedAt_eq hfi, placedAt_eq hfj, hexact hwi hdi, hexact hwj hdj,
    Prod.Lex.toLex_le_toLex] at hle
  simp only [hwi.lt_iff hwj, hwi.inj hwj] at hle
  rw [MemoryJob.before_iff]
  refine hle.imp_right fun ⟨heq, hmem⟩ => ⟨heq, ?_⟩
  simp only [MemoryJob.memberAs, hfi, hfj, Option.isSome_none, Bool.false_eq_true, if_false,
    (Mirrors.key hi).2, (Mirrors.key hj).2] at hmem
  have hnum := hm.num_le hi
  have hnum' := hm.num_le hj
  rcases hmem.lt_or_eq with hlt | heq
  · rw [member_lt hnum hnum'] at hlt
    have hord := hm.order id id' i j hi hj
    have hord' := hm.order id' id j i hj hi
    rcases hlt with hlt | ⟨heq, -⟩
    · exact hord.2 hlt
    · exact absurd (hm.inj id id' i j hi hj (by omega)) hne
  · have hids := congrArg memberID heq
    rw [memberID_member (lt_seqLimit hnum), memberID_member (lt_seqLimit hnum')] at hids
    exact absurd hids hne

/-- **Both drivers reserve the same job.** -/
theorem Mirrors.pick (hm : Mirrors c queue N mem k num) (hnow : Whole now)
    (hearly : unixMilli now < 2 ^ 53) :
    Redis.pick (onAbs toDouble (unixMilli now)) k = (mem.next queue now).map fun j =>
      (j.place, score j.placedAt, j.memberAs (num j.env.id)) := by
  have hscore : onAbs toDouble (unixMilli now) = unixMilli now := hnow.score_eq hearly.le
  rw [hscore]
  cases hnext : mem.next queue now with
  | none =>
    rw [next_eq_none] at hnext
    refine RedisKeys.pick_eq_none.2 fun key hkey m x hx => ?_
    obtain ⟨j, hj, rfl, -, rfl⟩ := hm.member hx
    have hfail := failure_of_place hkey
    have hna := hnext _ j hj rfl
    rw [← Bool.not_eq_true, available_iff hfail] at hna
    rw [placedAt_eq hfail, ← not_le, (hm.stored _ j hj).tame.readyAt.score_le_iff hnow hearly]
    exact hna
  | some j =>
    obtain ⟨hj, rfl, hav⟩ := next_eq_some hnext
    have hfail := MemoryJob.failure_of_available hav
    have hmj := hm.stored _ j hj
    have hplace : j.place ≠ .failed := by
      cases hr : j.reserved <;> simp [MemoryJob.place, hfail, hr]
    have hdue : j.readyAt ≤ now := (available_iff hfail).1 hav
    cases hp : Redis.pick (unixMilli now) k with
    | none =>
      have hlt := RedisKeys.pick_eq_none.1 hp _ hplace _ _ hmj.place
      rw [placedAt_eq hfail, ← not_le, hmj.tame.readyAt.score_le_iff hnow hearly] at hlt
      exact absurd hdue hlt
    | some x =>
      obtain ⟨source, since, m⟩ := x
      obtain ⟨hsource, hlookup, hsince, hmin⟩ := RedisKeys.pick_spec hp
      obtain ⟨i, hi, rfl, hmem, rfl⟩ := hm.member hlookup
      generalize hid : idOf i.place m = id at *
      have hfail' := failure_of_place hsource
      have hmi := hm.stored _ i hi
      rw [placedAt_eq hfail', hmi.tame.readyAt.score_le_iff hnow hearly] at hsince
      suffices hsame : i = j by
        subst hsame
        have hkey := (Mirrors.key hi).2
        rw [hmem, ← hkey]
        rfl
      by_contra hne
      have hids : id ≠ j.env.id := by
        rintro rfl
        exact hne (Option.some.inj (hi.symm.trans hj))
      have hle := hmin _ hplace _ _ hmj.place
      rw [hmem] at hle
      have hbefore := hm.before_of_le hnow hearly hi hj hids hfail' hfail hsince hdue hle
      -- the loop of memory's `Reserve` would have preferred `i`
      have hleast := firstBy_least MemoryJob.before_trans MemoryJob.before_asymm hnext
        (mem_jobList.2 (show mem.jobs.lookup i.key = some i by
          rw [mem.keyed _ _ hi]; exact hi))
        (by simp [(Mirrors.key hi).1, (available_iff hfail').2 hsince])
      rw [hbefore] at hleast
      cases hleast

end Pick

theorem leaseJob_hash (j : MemoryJob) (lease : ℤ) (receipt : String) (n : ℕ) :
    (MemoryQueue.leaseJob j now lease receipt).hash c n =
      { j.hash c n with attempts := some (j.attempts + 1), receipt := some receipt } := rfl

theorem leaseJob_tame (h : j.Tame c) (hfail : j.failure = none) (hr : receipt ≠ "")
    (hnow : Whole now) (hl : 0 < lease) (hdvd : 10 ^ 6 ∣ lease) :
    (MemoryQueue.leaseJob j now lease receipt).Tame c where
  env := h.env
  receipt := by simpa [leaseJob] using hr
  available := h.available
  deadline _ := hnow.add hdvd hl.le
  failure f hf := by simp [leaseJob, hfail] at hf
  held := h.held
  ttl := h.ttl
  raw := h.raw

section Reserving

variable (h : Related c now drawn mem red) (hnow : Whole now) (hearly : unixMilli now < 2 ^ 53)
  (hdvd : 10 ^ 6 ∣ lease) (hr : receipt ≠ "")

include h hnow hearly hdvd hr

/-- The reservation of one job, on both sides. -/
theorem reserve_related (hl : 0 < lease)
    (hm : Mirrors c queue (drawn queue) mem (red.keys queue) num)
    (hnext : mem.next queue now = some j) :
    RedisQueue.delivery c queue receipt ((red.keys queue).leaseReply j.place (score j.placedAt)
        (j.memberAs (num j.env.id))) = MemoryQueue.deliver j queue receipt ∧
      Related c now drawn (mem.setJob (MemoryQueue.leaseJob j now lease receipt))
        (red.setKeys queue ((red.keys queue).leasedOut (unixMilli (now + lease)) receipt j.place
          (j.memberAs (num j.env.id)))) := by
  obtain ⟨hj, rfl, hav⟩ := next_eq_some hnext
  have hfail := MemoryJob.failure_of_available hav
  have hmj := hm.stored _ j hj
  have hdue := (available_iff hfail).1 hav
  have hw := hmj.tame.readyAt
  have hscore : score j.placedAt = unixMilli j.readyAt := by
    have := (hw.le_iff hnow).2 hdue
    rw [placedAt_eq hfail, hw.score_eq (by omega)]
  have hmember : j.memberAs (num j.env.id) = member (num j.env.id) j.env.id := by
    simp [MemoryJob.memberAs, hfail]
  have hid : memberID (j.memberAs (num j.env.id)) = j.env.id := by
    rw [hmember, memberID_member (lt_seqLimit (hm.num_le hj))]
  have hplace : j.place ≠ .failed ∧ (j.place = .reserved ↔ j.reserved = true) := by
    cases hres : j.reserved <;> simp [MemoryJob.place, hfail, hres]
  obtain ⟨s, hs, hdecode⟩ := hmj.tame.env
  constructor
  · have henv : ((red.keys j.queue).job j.env.id).env = some s := by rw [hmj.hash]; exact hs
    have hattempts : ((red.keys j.queue).job j.env.id).attempts = some j.attempts := by
      rw [hmj.hash]; rfl
    simp only [RedisQueue.delivery, RedisKeys.leaseReply, hid, henv, hattempts, Option.getD_some,
      hdecode, hscore, deliver, hw.1]
    cases hres : j.reserved <;> simp [hplace.2, hres]
  · have hframe : Frame (red.keys j.queue) ((red.keys j.queue).leasedOut (unixMilli (now + lease))
        receipt j.place (j.memberAs (num j.env.id))) _ :=
      frame_leasedOut _ _ _ (by rw [hid, MemoryJob.idOf_memberAs (hm.num_le hj)])
    rw [hid] at hframe
    have hmemFrame : MemFrame mem (mem.setJob (leaseJob j now lease receipt))
        ⟨j.queue, j.env.id⟩ := .setJob rfl rfl le_rfl
    have hcons : ((red.keys j.queue).leasedOut (unixMilli (now + lease)) receipt j.place
        (j.memberAs (num j.env.id))).Consistent :=
      (moved_leasedOut (c := .stats 0) hm.consistent
        (AList.lookup_isSome.1 (by simp [hmj.place])) hplace.1 hr).consistent hm.consistent
    refine h.onQueue rfl le_rfl (fun queue' hq id' => hmemFrame.jobs _ fun heq =>
      hq (congrArg MemoryKey.queue heq)) (fun _ _ => rfl) ⟨num, ?_⟩ (fun queue' _ key =>
      h.uniques queue' key) (fun key => h.uniques j.queue key) h.once
    refine hm.rewrite hframe hcons (lookup_setJob_of_key _ _ rfl) hmemFrame.others hj rfl
      rfl rfl ⟨leaseJob_tame hmj.tame hfail hr hnow hl hdvd, ?_, ?_⟩
    · have hself : (leaseJob j now lease receipt).env.id = j.env.id := rfl
      rw [hself, leaseJob_hash, RedisKeys.leasedOut, zadd_job, hid, setJob_job_self, hmj.hash]
      rfl
    · have hm' : (leaseJob j now lease receipt).memberAs (num j.env.id) =
          j.memberAs (num j.env.id) := rfl
      rw [hm']
      simp [MemoryJob.place, leaseJob, hfail, RedisKeys.leasedOut, score,
        MemoryJob.placedAt, MemoryJob.readyAt]

theorem reserveFrom_simulates (hl : 0 < lease) (queues : List String) :
    (mem.reserveFrom now lease receipt queues).1 =
        (RedisQueue.reserveFrom c now lease receipt queues red).1 ∧
      Related c now drawn (mem.reserveFrom now lease receipt queues).2
        (RedisQueue.reserveFrom c now lease receipt queues red).2 := by
  induction queues with
  | nil => exact ⟨rfl, h⟩
  | cons queue queues ih =>
    obtain ⟨num, hm⟩ := h.queues queue
    have hrun := run_reserveScript hm.consistent (unixMilli now) (unixMilli (now + lease)) receipt
    rw [hm.pick hnow hearly] at hrun
    rw [reserveFrom, RedisQueue.reserveFrom]
    cases hnext : mem.next queue now with
    | none =>
      simp only [hnext, Option.map_none] at hrun
      rw [RedisQueue.run_eq hrun, RedisQueue.setKeys_keys_eq]
      exact ih
    | some j =>
      simp only [hnext, Option.map_some] at hrun
      rw [RedisQueue.run_eq hrun]
      obtain ⟨hdelivery, hrel⟩ := reserve_related h hnow hearly hdvd hr hl hm hnext
      exact ⟨congrArg Answer.delivery hdelivery.symm, hrel⟩

theorem reserve_simulates {queues : List String}
    (hnames : ∀ queue ∈ queues, validName queue = true) :
    Simulates c now drawn (.reserve queues lease receipt) mem red := by
  have hfind : (queues.find? fun queue => !validName queue) = none := by
    rw [List.find?_eq_none]
    intro queue hq
    simp [hnames queue hq]
  have hdrawn : drawnAfter drawn (.reserve queues lease receipt) = drawn := by
    funext queue
    simp [drawnAfter, Op.drawsOn]
  unfold Simulates
  rw [hdrawn]
  rcases le_or_gt lease 0 with hl | hl
  · simp only [step, reserve, RedisQueue.step, RedisQueue.reserve, hl,
      if_true, h.redOpen, Bool.false_eq_true, if_false, true_and]
    exact h
  · simp only [step, reserve, RedisQueue.step, RedisQueue.reserve,
      not_le.2 hl, if_false, hfind, h.redOpen, h.memOpen, Bool.false_eq_true, Clock.const]
    exact reserveFrom_simulates h hnow hearly hdvd hr hl queues

end Reserving

end Steps

end Gombit.Jobs
