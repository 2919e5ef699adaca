import Gombit.Jobs.MirrorReads

/-!
# The in-memory queue and the Redis queue answer alike

A script is a sequence of operations, each at the instant the clock shows. Both drivers, started
empty and driven by the same script, return the same answers (`driver_equivalence`): the relation
`Related` holds at the start and is kept by every operation.

What the script must keep to is in two parts. `Timed` and `Op.Allowed` are the contract: the clock
does not go back, times and durations are whole milliseconds, names are valid. The rest is what
Redis adds, and each part of it is needed (`driver_equivalence_limits`):

* a queue draws at most 2⁵³ sequence numbers, the numbers Lua can tell apart;
* the clock stays below 10¹⁴ ms, the instants `Stats` passes on with all their digits;
* a lock or a record lives for a positive time;
* envelopes and failures are reproduced by their encoding.
-/

namespace Gombit.Jobs

open List RedisQueue RedisKeys

/-! ## Scripts -/

/-- What the in-memory queue answers to a script. -/
def MemoryQueue.answers : MemoryQueue → List (ℤ × Op) → List Answer
  | _, [] => []
  | q, (now, op) :: script =>
    (q.step op (.const now)).1 :: (q.step op (.const now)).2.answers script

/-- What the Redis queue answers to a script. -/
def RedisQueue.answers (c : Codec) : RedisQueue → List (ℤ × Op) → List Answer
  | _, [] => []
  | q, (now, op) :: script => (q.step c now op).1 :: (q.step c now op).2.answers c script

/-- The clock of a script shows whole milliseconds from 1970 on and does not go back. -/
structure Timed (script : List (ℤ × Op)) : Prop where
  whole : ∀ e ∈ script, Whole e.1
  order : (script.map Prod.fst).Pairwise (· ≤ ·)

/-- An instant a caller passes: zero, or a whole millisecond from 1970 on. -/
def WholeOrZero (t : ℤ) : Prop := t = 0 ∨ Whole t

instance (t : ℤ) : Decidable (WholeOrZero t) := inferInstanceAs (Decidable (_ ∨ _))

/-- Valid queue names, ids that are not empty, times in whole milliseconds. -/
def Op.Allowed : Op → Prop
  | .push queue env at_ => validName queue = true ∧ env.id ≠ "" ∧ WholeOrZero at_
  | .pushUnique queue env at_ unique =>
    validName queue = true ∧ env.id ≠ "" ∧ WholeOrZero at_ ∧ 10 ^ 6 ∣ unique.ttl
  | .reserve queues lease receipt =>
    (∀ queue ∈ queues, validName queue = true) ∧ 10 ^ 6 ∣ lease ∧ receipt ≠ ""
  | .ack d => validName d.queue = true
  | .release d at_ => validName d.queue = true ∧ WholeOrZero at_
  | .postpone d at_ => validName d.queue = true ∧ WholeOrZero at_
  | .extend d lease => validName d.queue = true ∧ 10 ^ 6 ∣ lease
  | .bury d f => validName d.queue = true ∧ WholeOrZero f.at_
  | .failed queue _ => validName queue = true
  | .failedJob queue _ => validName queue = true
  | .retryFailed queue _ => validName queue = true
  | .forgetFailed queue _ => validName queue = true
  | .purgeFailed queue before => validName queue = true ∧ WholeOrZero before
  | .stats queue => validName queue = true
  | .beginOnce _ _ lock => 10 ^ 6 ∣ lock
  | .finishOnce _ _ keep => 10 ^ 6 ∣ keep
  | .abandonOnce _ _ => True
  | .close => False

instance (op : Op) : Decidable op.Allowed := by
  cases op <;> unfold Op.Allowed <;> infer_instance

/-- The encoding reproduces what the operation stores. -/
def Op.Kept (c : Codec) (now : ℤ) : Op → Prop
  | .push _ env _ => c.Keeps { env with attempt := 0 }
  | .pushUnique _ env _ _ => c.Keeps { env with attempt := 0 }
  | .bury _ f => c.KeepsFailure (f.stamp now)
  | _ => True

instance (c : Codec) (now : ℤ) (op : Op) : Decidable (op.Kept c now) := by
  cases op <;> unfold Op.Kept <;> infer_instance

/-- A `Once` lock or record is set for a positive time. -/
def Op.Lasting : Op → Prop
  | .beginOnce _ _ lock => 0 < lock
  | .finishOnce _ _ keep => 0 < keep
  | _ => True

instance (op : Op) : Decidable op.Lasting := by
  cases op <;> unfold Op.Lasting <;> infer_instance

/-! ## Equivalence -/

section Equivalence

variable {c : Codec} {now : ℤ} {drawn : String → ℕ} {op : Op} {mem : MemoryQueue}
  {red : RedisQueue}

/-- **One operation**, from related states. -/
theorem simulates (h : Related c now drawn mem red) (hnow : Whole now)
    (hearly : unixMilli now < 10 ^ 14) (hallowed : op.Allowed) (hkept : op.Kept c now)
    (hlasting : op.Lasting) (hb : ∀ queue, drawnAfter drawn op queue ≤ 2 ^ 53) :
    Simulates c now drawn op mem red := by
  have hearly' : unixMilli now < 2 ^ 53 := by omega
  cases op with
  | push queue env at_ => exact push_simulates h hb hnow hallowed.1 hallowed.2.1 hallowed.2.2 hkept
  | pushUnique queue env at_ unique =>
    obtain ⟨hname, hid, hat, hdvd⟩ := hallowed
    exact pushUnique_simulates h hb hnow hname hid hat hkept hdvd
  | reserve queues lease receipt =>
    obtain ⟨hnames, hdvd, hr⟩ := hallowed
    exact reserve_simulates h hnow hearly' hdvd hr hnames
  | ack d => exact ack_simulates h hb hallowed
  | release | postpone =>
    exact release_related h rfl rfl (fun _ => rfl) hb hnow hallowed.1 hallowed.2
  | extend d lease => exact extend_simulates h hb hnow hallowed.1 hallowed.2
  | bury d f =>
    refine bury_simulates h hb hallowed.1 hkept ?_
    unfold Failure.stamp
    split
    · exact hnow
    · exact hallowed.2.resolve_left (by assumption)
  | failed queue limit => exact failed_simulates h hallowed hb
  | failedJob queue id => exact failedJob_simulates h hb hallowed
  | retryFailed queue id => exact retryFailed_simulates h hb hnow hallowed
  | forgetFailed queue id => exact forgetFailed_simulates h hb hallowed
  | purgeFailed queue before => exact purgeFailed_simulates h hallowed.1 hallowed.2
  | stats queue => exact stats_simulates h hnow hearly hallowed hb
  | beginOnce key token lock => exact beginOnce_simulates h hnow hlasting hallowed
  | finishOnce key token keep => exact finishOnce_simulates h hnow hlasting hallowed hb
  | abandonOnce key token => exact abandonOnce_simulates h
  | close => exact hallowed.elim

/-- A whole script, from related states. -/
theorem answers_eq {script : List (ℤ × Op)} (h : Related c now drawn mem red) (hnow : Whole now)
    (hlater : ∀ e ∈ script, now ≤ e.1) (htimed : Timed script)
    (hearly : ∀ e ∈ script, unixMilli e.1 < 10 ^ 14) (hallowed : ∀ e ∈ script, e.2.Allowed)
    (hkept : ∀ e ∈ script, e.2.Kept c e.1) (hlasting : ∀ e ∈ script, e.2.Lasting)
    (hdraws : ∀ queue, drawn queue + script.countP (fun e => e.2.drawsOn queue) ≤ 2 ^ 53) :
    mem.answers script = red.answers c script := by
  induction script generalizing now drawn mem red with
  | nil => rfl
  | cons e script ih =>
    obtain ⟨t, op⟩ := e
    simp only [mem_cons, forall_eq_or_imp] at hlater hearly hallowed hkept hlasting
    have hwhole := htimed.whole
    simp only [mem_cons, forall_eq_or_imp] at hwhole
    obtain ⟨hle, horder⟩ := pairwise_cons.1 htimed.order
    have hcount : ∀ queue, drawnAfter drawn op queue +
        script.countP (fun e => e.2.drawsOn queue) ≤ 2 ^ 53 := by
      intro queue
      have hcount := hdraws queue
      rw [countP_cons] at hcount
      unfold drawnAfter
      dsimp only at hcount
      omega
    obtain ⟨hsame, hrelated⟩ := simulates (h.mono hnow hwhole.1 hlater.1) hwhole.1 hearly.1
      hallowed.1 hkept.1 hlasting.1 fun queue => by have := hcount queue; omega
    rw [MemoryQueue.answers, RedisQueue.answers, hsame]
    refine congrArg _ (ih hrelated hwhole.1 (fun e he => hle _ (mem_map_of_mem he))
      ⟨hwhole.2, horder⟩ hearly.2 hallowed.2 hkept.2 hlasting.2 hcount)

end Equivalence

/-- **Driver equivalence.** Driven by the same script, the two drivers return the same answers. -/
theorem driver_equivalence (c : Codec) (script : List (ℤ × Op)) (htimed : Timed script)
    (hallowed : ∀ e ∈ script, e.2.Allowed) (hearly : ∀ e ∈ script, unixMilli e.1 < 10 ^ 14)
    (hkept : ∀ e ∈ script, e.2.Kept c e.1) (hlasting : ∀ e ∈ script, e.2.Lasting)
    (hdraws : ∀ queue, script.countP (fun e => e.2.drawsOn queue) ≤ 2 ^ 53) :
    MemoryQueue.empty.answers script = RedisQueue.empty.answers c script := by
  have hepoch : Whole epoch := by decide
  refine answers_eq (related_empty c epoch) hepoch (fun e he => ?_) htimed hearly hallowed hkept
    hlasting fun queue => by rw [Nat.zero_add]; exact hdraws queue
  have hw := htimed.whole e he
  rw [← hepoch.le_iff hw]
  exact hw.2

/-! ## Samples -/

/-- A job with the id. -/
def sampleEnvelope (id : String) : Envelope := ⟨id, "mail", 1, "\x7b\x7d", [], epoch, 0⟩

def sampleFailure : Failure := ⟨reasonPermanent, .handler, "no such address", epoch⟩

/-- The JSON text of a sample with the id and the name. -/
def sampleText (id name : String) : String :=
  String.ofList ('\x7b' :: ("\"id\":\"".toList ++ id.toList ++ "\",\"name\":\"".toList ++ name.toList ++
    "\",\"version\":1,\"payload\":\x7b\x7d,\"enqueued_at\":\"1970-01-01T00:00:00Z\"".toList ++
    ",\"attempt\":0\x7d".toList))

/-- The JSON text of `sampleFailure`. -/
def failureText : String :=
  "\x7b\"reason\":\"permanent failure\",\"kind\":\"handler\",\"error\":\"no such address\"," ++
    "\"at\":\"1970-01-01T00:00:00Z\"\x7d"

/-- `encoding/json` on the samples: the id and the name are read up to the quote that ends them. The
payload comes back without blanks and a time after the year 9999 is refused. -/
def sampleCodec : Codec where
  marshal e := some (sampleText e.id e.name)
  unmarshal s :=
    let id := (s.toList.drop 7).takeWhile (· ≠ '"')
    let name := (s.toList.drop (id.length + 17)).takeWhile (· ≠ '"')
    .ok { sampleEnvelope (String.ofList id) with name := String.ofList name }
  marshalFailure f := if unixMilli f.at_ < 253402300800000 then some failureText else none
  unmarshalFailure _ := .ok sampleFailure
  marshal_ne _ h :=
    cons_ne_nil _ _ (String.toList_ofList.symm.trans (congrArg String.toList (Option.some.inj h)))
  marshalFailure_ne f := by split_ifs <;> decide
  marshalFailure_year f h := by
    by_contra hlate
    exact h (if_neg hlate)

/-- What a reservation hands out of a sample. -/
def sampleDelivery (id : String) : Delivery :=
  ⟨"q", { sampleEnvelope id with attempt := 1 }, "r", false, epoch, none⟩

/-- A job pushed, leased, buried and retried. -/
def sampleScript : List (ℤ × Op) :=
  [(epoch, .push "q" (sampleEnvelope "x") 0), (epoch, .reserve ["q"] (10 ^ 6) "r"),
    (epoch, .bury (sampleDelivery "x") sampleFailure), (epoch, .failed "q" 0),
    (epoch, .retryFailed "q" "x"), (epoch, .stats "q")]

/-- The drivers agree on the sample, and both find the job. -/
theorem driver_equivalence_sample :
    MemoryQueue.empty.answers sampleScript = RedisQueue.empty.answers sampleCodec sampleScript ∧
      .delivery (sampleDelivery "x") ∈ MemoryQueue.empty.answers sampleScript := by
  exact ⟨driver_equivalence sampleCodec sampleScript ⟨by decide, by decide⟩ (by decide) (by decide)
    (by decide) (by decide) fun queue => countP_le_length.trans (by decide), by decide⟩

namespace RedisQueue

/-- The queue after a script. -/
def after (c : Codec) (script : List (ℤ × Op)) : RedisQueue :=
  script.foldl (fun q e => (q.step c e.1 e.2).2) empty

/-- **Operations keep the representation**, whatever the clock shows and they are given: each one,
with its loops over queues and pages, is a run of the Lua scripts on the data of every queue. -/
theorem missing_or_stored_after (c : Codec) (script : List (ℤ × Op)) (queue id : String)
    (hdraws : ∀ e ∈ script, Draws e.2) (hseq : ((after c script).keys queue).seq < seqLimit) :
    Xor (((after c script).keys queue).Missing id) (((after c script).keys queue).Stored id) := by
  have hscripted : Scripted empty (after c script) :=
    foldlRecOn script _ (.refl _) fun q hq e he => hq.trans (step_scripted c q e.1 (hdraws e he))
  obtain ⟨calls, hrun⟩ := hscripted queue
  exact (consistent_run hrun hseq id).missing_or_stored

theorem missing_or_stored_after_sample :
    Xor (((after sampleCodec sampleScript).keys "q").Missing "x")
      (((after sampleCodec sampleScript).keys "q").Stored "x") :=
  missing_or_stored_after _ _ _ _ (by simp [sampleScript, Draws]) (by decide +kernel)

end RedisQueue

/-! ## The limits

A job that is pushed, leased and acked draws one number and leaves both drivers as they were, but for
the counter. -/

section Cycle

open Redis RedisKeys

variable {n : ℕ} (rest : List (ℤ × Op))

/-- The empty in-memory queue after `n` numbers were drawn. -/
def drawnMemory (n : ℕ) : MemoryQueue := { MemoryQueue.empty with seq := n }

/-- A Redis queue with the data of one queue. -/
def holding (k : RedisKeys) : RedisQueue := RedisQueue.empty.setKeys "q" k

theorem holding_keys (k : RedisKeys) : (holding k).keys "q" = k := setKeys_keys_self ..

theorem holding_setKeys (k k' : RedisKeys) : (holding k).setKeys "q" k' = holding k' :=
  setKeys_setKeys ..

/-- Push, lease and ack. -/
def cycle : List (ℤ × Op) :=
  [(epoch, .push "q" (sampleEnvelope "x") 0), (epoch, .reserve ["q"] (10 ^ 6) "r"),
    (epoch, .ack (sampleDelivery "x"))]

/-- The job as Redis stores it. -/
abbrev mailText : String := sampleText "x" "mail"

theorem drawnMemory_cycle (n : ℕ) : (drawnMemory n).answers (cycle ++ rest) =
    [.ok, .delivery (sampleDelivery "x"), .ok] ++ (drawnMemory (n + 1)).answers rest := rfl

theorem holding_push (n : ℕ) :
    (holding (drawn n)).step sampleCodec epoch (.push "q" (sampleEnvelope "x") 0) =
      (.ok, holding (pushedOne mailText "x" n)) := by
  have hrun : (pushScript mailText 0 "x").run ((holding (drawn n)).keys "q") =
      .ok 1 (pushedOne mailText "x" n) := by
    rw [holding_keys, run_pushScript, if_pos (by rfl)]
    rfl
  have hdata : sampleCodec.marshal { sampleEnvelope "x" with attempt := 0 } = some mailText := rfl
  rw [RedisQueue.step, RedisQueue.push, if_neg (by simp [holding, RedisQueue.empty]),
    if_neg (by decide), if_neg (by decide), hdata]
  exact (ask_eq hrun _).trans (congrArg (Prod.mk Answer.ok) (holding_setKeys ..))

variable (hn : n + 1 < seqLimit)

include hn

theorem holding_reserve :
    (holding (pushedOne mailText "x" n)).step sampleCodec epoch (.reserve ["q"] (10 ^ 6) "r") =
      (.delivery (sampleDelivery "x"), holding (leasedOne mailText "x" n 1)) := by
  have hrun := run_reserve_pushed mailText "x" 1 hn
  generalize pushedOne mailText "x" n = k at hrun
  generalize leasedOne mailText "x" n 1 = k' at hrun
  rw [← holding_keys k, show (0 : ℤ) = unixMilli epoch by decide,
    show (1 : ℤ) = unixMilli (epoch + 10 ^ 6) by decide] at hrun
  have hfind : ["q"].find? (fun queue => !validName queue) = none := by decide
  rw [RedisQueue.step, RedisQueue.reserve, if_neg (by simp [holding, RedisQueue.empty]),
    if_neg (by decide), hfind]
  simp only [RedisQueue.reserveFrom, run_eq hrun, holding_setKeys]
  rfl

theorem holding_ack :
    (holding (leasedOne mailText "x" n 1)).step sampleCodec epoch
      (.ack (sampleDelivery "x")) = (.ok, holding (drawn (n + 1))) := by
  have hrun := run_ack_leased mailText "x" 1 hn
  generalize leasedOne mailText "x" n 1 = k at hrun
  rw [← holding_keys k] at hrun
  rw [RedisQueue.step, RedisQueue.ack]
  exact (settle_held rfl (by decide) (by decide) hrun).trans
    (congrArg (Prod.mk Answer.ok) (holding_setKeys ..))

theorem holding_cycle : (holding (drawn n)).answers sampleCodec (cycle ++ rest) =
    [.ok, .delivery (sampleDelivery "x"), .ok] ++
      (holding (drawn (n + 1))).answers sampleCodec rest := by
  simp only [cycle, cons_append, nil_append, RedisQueue.answers, holding_push, holding_reserve hn,
    holding_ack hn]

omit hn in
/-- After `m` cycles, on both sides. -/
theorem answers_cycles {m : ℕ} (hn : n + m < seqLimit) :
    ∃ before, (drawnMemory n).answers ((List.replicate m cycle).flatten ++ rest) =
        before ++ (drawnMemory (n + m)).answers rest ∧
      (holding (drawn n)).answers sampleCodec ((List.replicate m cycle).flatten ++ rest) =
        before ++ (holding (drawn (n + m))).answers sampleCodec rest := by
  induction m generalizing n with
  | zero => exact ⟨[], rfl, rfl⟩
  | succ m ih =>
    obtain ⟨before, hmem, hred⟩ := ih (n := n + 1) (by omega)
    rw [show n + 1 + m = n + (m + 1) by omega] at hmem hred
    refine ⟨[.ok, .delivery (sampleDelivery "x"), .ok] ++ before, ?_, ?_⟩
    · rw [replicate_succ, flatten_cons, append_assoc, drawnMemory_cycle, hmem, append_assoc]
    · rw [replicate_succ, flatten_cons, append_assoc, holding_cycle _ (by omega), hred, append_assoc]

end Cycle

/-- Two pushes and a reservation. -/
def lastPushes : List (ℤ × Op) :=
  [(epoch, .push "q" (sampleEnvelope "b") 0), (epoch, .push "q" (sampleEnvelope "a") 0),
    (epoch, .reserve ["q"] (10 ^ 6) "r")]

/-- A job pushed, leased and acked again and again, until the last two pushes draw the numbers 2⁵³ and
2⁵³ + 1, which Lua reads as one. -/
def wornScript : List (ℤ × Op) := (List.replicate (2 ^ 53 - 1) cycle).flatten ++ lastPushes

theorem answers_lastPushes :
    (drawnMemory (2 ^ 53 - 1)).answers lastPushes ≠
      (holding (.drawn (2 ^ 53 - 1))).answers sampleCodec lastPushes := by
  decide

theorem answers_wornScript :
    MemoryQueue.empty.answers wornScript ≠ RedisQueue.empty.answers sampleCodec wornScript := by
  obtain ⟨before, hmem, hred⟩ := answers_cycles lastPushes (n := 0) (m := 2 ^ 53 - 1) (by decide)
  have hempty : holding (.drawn 0) = RedisQueue.empty := by
    simp [holding, RedisKeys.drawn, RedisQueue.setKeys, RedisQueue.empty]
    rfl
  have hmem : MemoryQueue.empty.answers wornScript = _ := hmem
  rw [hempty] at hred
  rw [hmem, wornScript, hred, Nat.zero_add]
  simpa only [ne_eq, append_cancel_left_eq] using answers_lastPushes

/-- A script within the contract, with at most 10¹⁶ numbers drawn from a queue, that the drivers
answer differently. -/
structure Diverges (c : Codec) (script : List (ℤ × Op)) : Prop where
  timed : Timed script
  allowed : ∀ e ∈ script, e.2.Allowed
  draws : ∀ queue, script.countP (fun e => e.2.drawsOn queue) ≤ 10 ^ 16
  differ : MemoryQueue.empty.answers script ≠ RedisQueue.empty.answers c script

theorem forall_wornScript {P : ℤ × Op → Prop} (hcycle : ∀ e ∈ cycle, P e)
    (hlast : ∀ e ∈ lastPushes, P e) : ∀ e ∈ wornScript, P e := by
  intro e he
  simp only [wornScript, mem_append, mem_flatten, mem_replicate] at he
  rcases he with ⟨l, ⟨-, rfl⟩, he⟩ | he
  · exact hcycle e he
  · exact hlast e he

theorem wornScript_epoch : ∀ e ∈ wornScript, e.1 = epoch :=
  forall_wornScript (by decide) (by decide)

theorem countP_wornScript (queue : String) :
    wornScript.countP (fun e => e.2.drawsOn queue) ≤ 10 ^ 16 := by
  have hcycle : cycle.countP (fun e => e.2.drawsOn queue) ≤ 1 := by
    by_cases h : "q" = queue <;> simp [cycle, Op.drawsOn, h]
  have hlast : lastPushes.countP (fun e => e.2.drawsOn queue) ≤ 3 := countP_le_length
  rw [wornScript, countP_append, countP_flatten, map_replicate, sum_replicate_nat]
  have := Nat.mul_le_mul_left (2 ^ 53 - 1) hcycle
  omega

theorem wornScript_diverges : Diverges sampleCodec wornScript where
  timed :=
    { whole := fun e he => by rw [wornScript_epoch e he]; decide
      order := pairwise_of_forall_mem_list fun t ht t' ht' => by
        obtain ⟨e, he, rfl⟩ := mem_map.1 ht
        obtain ⟨e', he', rfl⟩ := mem_map.1 ht'
        rw [wornScript_epoch e he, wornScript_epoch e' he'] }
  allowed := forall_wornScript (by decide) (by decide)
  draws := countP_wornScript
  differ := answers_wornScript

/-- A short script diverges if it is found to by running it. -/
theorem diverges_of_short {script : List (ℤ × Op)} (hlength : script.length ≤ 10 ^ 16)
    (htimed : Timed script) (hallowed : ∀ e ∈ script, e.2.Allowed)
    (hdiffer : MemoryQueue.empty.answers script ≠ RedisQueue.empty.answers sampleCodec script) :
    Diverges sampleCodec script :=
  ⟨htimed, hallowed, fun _ => countP_le_length.trans hlength, hdiffer⟩

/-- `Stats` of a job due now, on a clock that shows more than 10¹⁴ ms: Lua writes fourteen digits of
the instant after which a job is scheduled. -/
def lateScript : List (ℤ × Op) :=
  [(ofUnixMilli (10 ^ 14 + 4), .push "q" (sampleEnvelope "x") 0),
    (ofUnixMilli (10 ^ 14 + 4), .stats "q")]

/-- A lock held for no time. -/
def instantLock : List (ℤ × Op) := [(epoch, .beginOnce "k" "t" 0)]

/-- A record kept for no time. -/
def instantRecord : List (ℤ × Op) :=
  [(epoch, .beginOnce "k" "t" (10 ^ 6)), (epoch, .finishOnce "k" "t" 0)]

/-- A job pushed and leased. -/
def pushReserve (env : Envelope) : List (ℤ × Op) :=
  [(epoch, .push "q" env 0), (epoch, .reserve ["q"] (10 ^ 6) "r")]

/-- A job buried with a failure of the year 10000. -/
def lateFailure : List (ℤ × Op) :=
  pushReserve (sampleEnvelope "x") ++ [(epoch, .bury (sampleDelivery "x")
    { sampleFailure with at_ := ofUnixMilli 253402300800000 })]

/-- **Each limit is needed**: without it, and with all the others, the drivers can be told apart. -/
theorem driver_equivalence_limits :
    -- the numbers drawn
    (Diverges sampleCodec wornScript ∧ (∀ e ∈ wornScript, unixMilli e.1 < 10 ^ 14) ∧
      (∀ e ∈ wornScript, e.2.Kept sampleCodec e.1) ∧ ∀ e ∈ wornScript, e.2.Lasting) ∧
    -- the clock
    (Diverges sampleCodec lateScript ∧ (∀ e ∈ lateScript, e.2.Kept sampleCodec e.1) ∧
      ∀ e ∈ lateScript, e.2.Lasting) ∧
    -- locks and records that last
    (Diverges sampleCodec instantLock ∧ Diverges sampleCodec instantRecord) ∧
    -- an envelope without a name, one that JSON normalises, a failure with no encoding
    Diverges sampleCodec (pushReserve { sampleEnvelope "x" with name := "" }) ∧
    Diverges sampleCodec (pushReserve { sampleEnvelope "x" with payload := "\x7b \x7d" }) ∧
    Diverges sampleCodec lateFailure := by
  refine ⟨⟨wornScript_diverges, ?_, ?_, ?_⟩, ⟨?_, by decide, by decide⟩, ⟨?_, ?_⟩, ?_, ?_, ?_⟩
  · intro e he
    rw [wornScript_epoch e he]
    decide
  · exact forall_wornScript (by decide) (by decide)
  · exact forall_wornScript (by decide) (by decide)
  all_goals exact diverges_of_short (by decide) ⟨by decide, by decide⟩ (by decide) (by decide)

end Gombit.Jobs
