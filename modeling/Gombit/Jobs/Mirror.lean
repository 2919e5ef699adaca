import Gombit.Jobs.Redis
import Gombit.Jobs.Transitions

/-!
# The Redis queue mirrors the in-memory queue

The relation between the states of the two drivers under which they answer alike. A job of the
in-memory queue is stored in Redis under a sequence number of its own (`Mirrored`): its hash holds
the job's fields, and it sits in the set and at the score that its state and its time say. The
numbers of a queue's jobs are ordered as their sequence numbers in memory are (`Mirrors.order`);
memory counts them over all queues, Redis for each. Claims agree as far as they have not expired
(`SameClaim`).

Times are whole milliseconds (`Whole`), for Redis stores nothing finer.
-/

namespace Gombit.Jobs

open Redis RedisKeys

/-! ## Whole milliseconds -/

/-- A whole millisecond, at or after 1970. -/
def Whole (t : ℤ) : Prop := ofUnixMilli (unixMilli t) = t ∧ 0 ≤ unixMilli t

instance (t : ℤ) : Decidable (Whole t) := inferInstanceAs (Decidable (_ ∧ _))

/-- The score of an instant. -/
def score (t : ℤ) : ℤ := onAbs toDouble (unixMilli t)

theorem unixMilli_add (t : ℤ) {d : ℤ} (hd : 10 ^ 6 ∣ d) :
    unixMilli (t + d) = unixMilli t + milliseconds d := by
  obtain ⟨e, rfl⟩ := hd
  rw [milliseconds, Int.mul_tdiv_cancel_left e (by norm_num), unixMilli, unixMilli,
    show t + 10 ^ 6 * e - epoch = t - epoch + 10 ^ 6 * e by ring,
    Int.add_mul_ediv_left _ _ (by norm_num)]

theorem milliseconds_pos {d : ℤ} (hd : 10 ^ 6 ∣ d) (h : 0 < d) : 0 < milliseconds d := by
  obtain ⟨e, rfl⟩ := hd
  rw [milliseconds, Int.mul_tdiv_cancel_left e (by norm_num)]
  omega

namespace Whole

variable {s t d now : ℤ}

theorem le_iff (hs : Whole s) (ht : Whole t) : unixMilli s ≤ unixMilli t ↔ s ≤ t := by
  have hs' := hs.1
  have ht' := ht.1
  unfold ofUnixMilli at hs' ht'
  omega

theorem lt_iff (hs : Whole s) (ht : Whole t) : unixMilli s < unixMilli t ↔ s < t := by
  have := le_iff ht hs
  omega

theorem inj (hs : Whole s) (ht : Whole t) : unixMilli s = unixMilli t ↔ s = t := by
  have := le_iff hs ht
  have := le_iff ht hs
  omega

theorem add (ht : Whole t) (hd : 10 ^ 6 ∣ d) (h : 0 ≤ d) : Whole (t + d) := by
  have hadd := unixMilli_add t hd
  obtain ⟨e, rfl⟩ := hd
  have he : 0 ≤ e := by omega
  rw [milliseconds, Int.mul_tdiv_cancel_left e (by norm_num)] at hadd
  have ht' := ht.1
  have hpos := ht.2
  refine ⟨?_, by omega⟩
  rw [hadd]
  unfold ofUnixMilli at ht' ⊢
  omega

theorem atLeast (ht : t = 0 ∨ Whole t) (hnow : Whole now) : Whole (atLeast t now) := by
  unfold Jobs.atLeast
  split
  · exact hnow
  · exact ht.resolve_left (by omega)

/-- A stored instant is due when it is due. -/
theorem score_le_iff (ht : Whole t) (hnow : Whole now) (hearly : unixMilli now < 2 ^ 53) :
    score t ≤ unixMilli now ↔ t ≤ now := by
  rw [score, onAbs_toDouble_le_iff ht.2 hearly hnow.2, ht.le_iff hnow]

theorem score_eq (ht : Whole t) (hearly : unixMilli t ≤ 2 ^ 53) : score t = unixMilli t := by
  refine onAbs_of_nonneg ht.2 ?_
  rw [toDouble_of_le]
  have := ht.2
  omega

end Whole

/-! ## Members -/

variable {n : ℕ}

theorem lt_seqLimit (h : n ≤ 2 ^ 53) : n < seqLimit := by
  unfold seqLimit
  omega

/-- Members are ordered by their numbers, and then by id. -/
theorem member_lt {n' : ℕ} (hn : n ≤ 2 ^ 53) (hn' : n' ≤ 2 ^ 53) (id id' : String) :
    member n id < member n' id' ↔ n < n' ∨ n = n' ∧ ':' :: id.toList < ':' :: id'.toList := by
  rw [member_lt_iff (lt_seqLimit hn) (lt_seqLimit hn'), toDouble_of_le hn, toDouble_of_le hn']

/-! ## The image of a job -/

/-- The encoding reproduces the envelope. -/
def Codec.Keeps (c : Codec) (e : Envelope) : Prop :=
  ∃ s, c.marshal e = some s ∧ c.unmarshalEnvelope s = .ok e

instance (c : Codec) (e : Envelope) : Decidable (c.Keeps e) :=
  inferInstanceAs (Decidable (∃ s ∈ c.marshal e, c.unmarshalEnvelope s = .ok e))

/-- The encoding reproduces the failure. -/
def Codec.KeepsFailure (c : Codec) (f : Failure) : Prop :=
  ∃ s, c.marshalFailure f = some s ∧ c.unmarshalFailure s = .ok f

instance (c : Codec) (f : Failure) : Decidable (c.KeepsFailure f) :=
  inferInstanceAs (Decidable (∃ s ∈ c.marshalFailure f, c.unmarshalFailure s = .ok f))

variable {c : Codec}

theorem Codec.KeepsFailure.early {f : Failure} (h : c.KeepsFailure f) :
    unixMilli f.at_ < 2 ^ 53 := by
  obtain ⟨s, hs, -⟩ := h
  have := c.marshalFailure_year f (by simp [hs])
  omega

variable {j : MemoryJob}

namespace MemoryJob

/-- The set a job is in. -/
def place (j : MemoryJob) : SetKey :=
  if j.failure.isSome then .failed else if j.reserved then .reserved else .pending

/-- The time its score is. -/
def placedAt (j : MemoryJob) : ℤ :=
  match j.failure with
  | some f => f.at_
  | none => j.readyAt

/-- Its member there, under the number `n`. -/
def memberAs (j : MemoryJob) (n : ℕ) : String :=
  if j.failure.isSome then j.env.id else member n j.env.id

/-- Its hash. -/
def hash (c : Codec) (j : MemoryJob) (n : ℕ) : JobHash where
  env := c.marshal j.env
  attempts := some j.attempts
  receipt := some j.receipt
  member := some (member n j.env.id)
  unique := if j.unique = "" then none else some j.unique
  uniqueTTL := if j.unique = "" then none else some (milliseconds j.uniqueTTL)
  failure := j.failure.bind c.marshalFailure

/-- What holds of every job of an in-memory queue driven in whole milliseconds. -/
structure Tame (c : Codec) (j : MemoryJob) : Prop where
  env : c.Keeps j.env
  receipt : j.receipt ≠ "" ↔ j.reserved = true
  available : Whole j.availableAt
  deadline : j.reserved = true → Whole j.leaseDeadline
  failure : ∀ f, j.failure = some f → c.KeepsFailure f ∧ Whole f.at_ ∧ j.reserved = false
  held : j.heldUnique = (decide (j.unique ≠ "") && j.failure.isNone)
  ttl : j.unique ≠ "" → 0 < j.uniqueTTL ∧ 10 ^ 6 ∣ j.uniqueTTL
  raw : j.raw = none

theorem Tame.readyAt (h : j.Tame c) : Whole j.readyAt := by
  unfold MemoryJob.readyAt
  split
  · exact h.deadline (by assumption)
  · exact h.available

theorem Tame.placedAt (h : j.Tame c) : Whole j.placedAt := by
  unfold MemoryJob.placedAt
  cases hf : j.failure with
  | none => exact h.readyAt
  | some f => exact (h.failure f hf).2.1

theorem idOf_memberAs (hn : n ≤ 2 ^ 53) : idOf j.place (j.memberAs n) = j.env.id := by
  unfold place memberAs
  split
  · rfl
  · split <;> exact memberID_member (lt_seqLimit hn) _

end MemoryJob

/-- Redis stores the job `j` under the number `n`. -/
structure Mirrored (c : Codec) (k : RedisKeys) (n : ℕ) (j : MemoryJob) : Prop where
  tame : j.Tame c
  hash : k.job j.env.id = j.hash c n
  place : (k.set j.place).lookup (j.memberAs n) = some (score j.placedAt)

theorem Mirrored.of_frame {k k' : RedisKeys} {id : String} (h : Mirrored c k n j)
    (hf : Frame k k' id) (hn : n ≤ 2 ^ 53) (hne : j.env.id ≠ id) :
    Mirrored c k' n j where
  tame := h.tame
  hash := (hf.job _ hne).trans h.hash
  place := by
    rw [hf.set _ _ (by rw [MemoryJob.idOf_memberAs hn]; exact hne)]
    exact h.place

/-! ## The relation, for one queue -/

/-- The data `k` of a queue mirrors the jobs `mem` has on it, the job `id` under the number
`num id`; no more than `N` numbers were drawn. -/
structure Mirrors (c : Codec) (queue : String) (N : ℕ) (mem : MemoryQueue) (k : RedisKeys)
    (num : String → ℕ) : Prop where
  consistent : k.Consistent
  seq_le : k.seq ≤ N
  bound : N ≤ 2 ^ 53
  stored : ∀ id j, mem.jobs.lookup ⟨queue, id⟩ = some j → Mirrored c k (num id) j
  missing : ∀ id, mem.jobs.lookup ⟨queue, id⟩ = none → k.job id = .absent
  seq : ∀ id j, mem.jobs.lookup ⟨queue, id⟩ = some j → j.seq ≤ mem.seq ∧ num id ≤ k.seq
  order : ∀ id id' j j', mem.jobs.lookup ⟨queue, id⟩ = some j →
    mem.jobs.lookup ⟨queue, id'⟩ = some j' → (j.seq < j'.seq ↔ num id < num id')
  inj : ∀ id id' j j', mem.jobs.lookup ⟨queue, id⟩ = some j →
    mem.jobs.lookup ⟨queue, id'⟩ = some j' → j.seq = j'.seq → id = id'

namespace Mirrors

variable {c : Codec} {queue : String} {N N' : ℕ} {mem mem' : MemoryQueue} {k k' : RedisKeys}
  {num : String → ℕ} {id : String} {j j' : MemoryJob}

theorem key (hj : mem.jobs.lookup ⟨queue, id⟩ = some j) : j.queue = queue ∧ j.env.id = id := by
  have hkey := mem.keyed _ _ hj
  exact ⟨congrArg MemoryKey.queue hkey, congrArg MemoryKey.id hkey⟩

theorem num_le (h : Mirrors c queue N mem k num) (hj : mem.jobs.lookup ⟨queue, id⟩ = some j) :
    num id ≤ 2 ^ 53 := by
  have := (h.seq id j hj).2
  have := h.seq_le
  have := h.bound
  omega

/-- The jobs of the queue and the data did not change; numbers may have been drawn elsewhere. -/
theorem of_eq (h : Mirrors c queue N mem k num)
    (hjobs : ∀ id, mem'.jobs.lookup ⟨queue, id⟩ = mem.jobs.lookup ⟨queue, id⟩)
    (hseq : mem.seq ≤ mem'.seq) (hset : k'.set = k.set) (hjob : k'.job = k.job)
    (hkseq : k'.seq = k.seq) (hN : N ≤ N') (hbound : N' ≤ 2 ^ 53) :
    Mirrors c queue N' mem' k' num where
  consistent := (Effect.same (c := .stats 0) hset hjob).consistent h.consistent
  seq_le := by have := h.seq_le; omega
  bound := hbound
  stored id j hj := by
    obtain ⟨htame, hhash, hplace⟩ := h.stored id j (by rwa [← hjobs])
    exact ⟨htame, by rw [hjob, hhash], by rw [hset, hplace]⟩
  missing id hid := by rw [hjob]; exact h.missing id (by rwa [← hjobs])
  seq id j hj := by
    have := h.seq id j (by rwa [← hjobs])
    omega
  order id id' j j' hj hj' := h.order id id' j j' (by rwa [← hjobs]) (by rwa [← hjobs])
  inj id id' j j' hj hj' := h.inj id id' j j' (by rwa [← hjobs]) (by rwa [← hjobs])

section Stored

variable (h : Mirrors c queue N mem k num) (hframe : Frame k k' id) (hcons : k'.Consistent)
  (hself : mem'.jobs.lookup ⟨queue, id⟩ = some j')
  (hothers : ∀ id' ≠ id, mem'.jobs.lookup ⟨queue, id'⟩ = mem.jobs.lookup ⟨queue, id'⟩)

include h hframe hcons hself hothers

/-- A job was stored under the number `n`, which has the place among the other numbers that the job
has among the other jobs. -/
theorem store (hkseq : k.seq ≤ k'.seq) (hseq : mem.seq ≤ mem'.seq) (hN : k'.seq ≤ N')
    (hbound : N' ≤ 2 ^ 53) (hlast : j'.seq ≤ mem'.seq ∧ n ≤ k'.seq)
    (hrank : ∀ id' ≠ id, ∀ i, mem.jobs.lookup ⟨queue, id'⟩ = some i →
      (i.seq < j'.seq ↔ num id' < n) ∧ (j'.seq < i.seq ↔ n < num id') ∧ i.seq ≠ j'.seq)
    (himage : Mirrored c k' n j') : Mirrors c queue N' mem' k' (Function.update num id n) := by
  have hcases : ∀ id' i', mem'.jobs.lookup ⟨queue, id'⟩ = some i' →
      id' = id ∧ i' = j' ∨ id' ≠ id ∧ mem.jobs.lookup ⟨queue, id'⟩ = some i' := by
    intro id' i' hi'
    by_cases hid : id' = id
    · subst hid
      rw [hself] at hi'
      exact .inl ⟨rfl, (Option.some.inj hi').symm⟩
    · exact .inr ⟨hid, (hothers id' hid).symm.trans hi'⟩
  refine ⟨hcons, hN, hbound, ?_, ?_, ?_, ?_, ?_⟩
  · intro id' i' hi'
    rcases hcases id' i' hi' with ⟨rfl, rfl⟩ | ⟨hid, hi⟩
    · rwa [Function.update_self]
    · rw [Function.update_of_ne hid]
      refine (h.stored id' i' hi).of_frame hframe (h.num_le hi) ?_
      rw [(key hi).2]
      exact hid
  · intro id' hid'
    by_cases hid : id' = id
    · subst hid
      simp [hself] at hid'
    · rw [hframe.job id' hid]
      exact h.missing id' (by rwa [← hothers id' hid])
  · intro id' i' hi'
    rcases hcases id' i' hi' with ⟨rfl, rfl⟩ | ⟨hid, hi⟩
    · rwa [Function.update_self]
    · have := h.seq id' i' hi
      rw [Function.update_of_ne hid]
      omega
  · intro id₁ id₂ i₁ i₂ h₁ h₂
    rcases hcases id₁ i₁ h₁ with ⟨rfl, rfl⟩ | ⟨hid₁, hi₁⟩ <;>
      rcases hcases id₂ i₂ h₂ with ⟨rfl, rfl⟩ | ⟨hid₂, hi₂⟩
    · simp
    · rw [Function.update_self, Function.update_of_ne hid₂]
      exact (hrank id₂ hid₂ i₂ hi₂).2.1
    · rw [Function.update_self, Function.update_of_ne hid₁]
      exact (hrank id₁ hid₁ i₁ hi₁).1
    · rw [Function.update_of_ne hid₁, Function.update_of_ne hid₂]
      exact h.order id₁ id₂ i₁ i₂ hi₁ hi₂
  · intro id₁ id₂ i₁ i₂ h₁ h₂ hs
    rcases hcases id₁ i₁ h₁ with ⟨rfl, rfl⟩ | ⟨hid₁, hi₁⟩ <;>
      rcases hcases id₂ i₂ h₂ with ⟨rfl, rfl⟩ | ⟨hid₂, hi₂⟩
    · rfl
    · exact absurd hs.symm (hrank id₂ hid₂ i₂ hi₂).2.2
    · exact absurd hs (hrank id₁ hid₁ i₁ hi₁).2.2
    · exact h.inj id₁ id₂ i₁ i₂ hi₁ hi₂ hs

/-- A job was changed in place: it keeps its number. -/
theorem rewrite (hj : mem.jobs.lookup ⟨queue, id⟩ = some j) (hkseq : k'.seq = k.seq)
    (hseq : mem'.seq = mem.seq) (hjseq : j'.seq = j.seq) (himage : Mirrored c k' (num id) j') :
    Mirrors c queue N mem' k' num := by
  have hle := h.seq_le
  have hlast := h.seq id j hj
  have hstore := h.store hframe hcons hself hothers hkseq.ge hseq.ge (by omega) h.bound
    (by omega) (fun id' hid i hi => ?_) himage
  · rwa [Function.update_eq_self] at hstore
  · rw [hjseq]
    exact ⟨h.order _ _ _ _ hi hj, h.order _ _ _ _ hj hi, fun hs => hid (h.inj _ _ _ _ hi hj hs)⟩

/-- A job was queued under the next number, in memory and in Redis: the other jobs have smaller
numbers on both sides. -/
theorem renumber (hkseq : k'.seq = k.seq + 1) (hbound : N + 1 ≤ 2 ^ 53)
    (hseq : mem'.seq = mem.seq + 1) (hjseq : j'.seq = mem.seq + 1)
    (himage : Mirrored c k' (k.seq + 1) j') :
    Mirrors c queue (N + 1) mem' k' (Function.update num id (k.seq + 1)) := by
  have hle := h.seq_le
  refine h.store hframe hcons hself hothers (by omega) (by omega) (by omega) hbound (by omega)
    (fun id' _ i hi => ?_) himage
  have := h.seq id' i hi
  omega

end Stored

/-- Jobs were deleted, the others kept. -/
theorem remove (h : Mirrors c queue N mem k num) {p : String → Prop} [DecidablePred p]
    (hcons : k'.Consistent) (hkseq : k'.seq = k.seq) (hseq : mem'.seq = mem.seq)
    (hjobs : ∀ id, mem'.jobs.lookup ⟨queue, id⟩ =
      if p id then none else mem.jobs.lookup ⟨queue, id⟩)
    (hjob : ∀ id, k'.job id = if p id then .absent else k.job id)
    (hset : ∀ key m, ¬p (idOf key m) → (k'.set key).lookup m = (k.set key).lookup m) :
    Mirrors c queue N mem' k' num := by
  have hold : ∀ id i, mem'.jobs.lookup ⟨queue, id⟩ = some i →
      ¬p id ∧ mem.jobs.lookup ⟨queue, id⟩ = some i := by
    intro id i hi
    rw [hjobs] at hi
    split_ifs at hi
    exact ⟨by assumption, hi⟩
  refine ⟨hcons, hkseq ▸ h.seq_le, h.bound, ?_, ?_, ?_, ?_, ?_⟩
  · intro id i hi
    obtain ⟨hp, hi⟩ := hold id i hi
    obtain ⟨htame, hhash, hplace⟩ := h.stored id i hi
    have hid := (key hi).2
    refine ⟨htame, ?_, ?_⟩
    · rw [hjob, if_neg (by rw [hid]; exact hp), hhash]
    · rw [hset, hplace]
      rw [MemoryJob.idOf_memberAs (h.num_le hi), hid]
      exact hp
  · intro id hid
    rw [hjobs] at hid
    rw [hjob]
    split
    · rfl
    · rename_i hp
      exact h.missing id (by rwa [if_neg hp] at hid)
  · intro id i hi
    rw [hseq, hkseq]
    exact h.seq id i (hold id i hi).2
  · intro id id' i i' hi hi'
    exact h.order id id' i i' (hold id i hi).2 (hold id' i' hi').2
  · intro id id' i i' hi hi'
    exact h.inj id id' i i' (hold id i hi).2 (hold id' i' hi').2

end Mirrors

/-! ## Claims -/

/-- The two records of a claim agree from `now` on: what is in force on one side is on the other,
with the same holder and expiry. -/
structure SameClaim (now : ℤ) (o : Option MemoryClaim) (o' : Option RedisString) : Prop where
  whole : ∀ claim, o = some claim → Whole claim.expires
  same : ∀ holder ms, o' = some ⟨holder, ms⟩ ∧ unixMilli now < ms ↔
    ∃ claim, o = some claim ∧ claim.holder = holder ∧ unixMilli claim.expires = ms ∧
      now < claim.expires

/-- A string, as `GET` finds it. -/
def RedisString.live (now : ℤ) (o : Option RedisString) : Option String :=
  (o.filter fun s => decide (now < s.expires)).map RedisString.value

theorem RedisString.live_eq_some {now : ℤ} {o : Option RedisString} {value : String} :
    RedisString.live now o = some value ↔ ∃ ms, o = some ⟨value, ms⟩ ∧ now < ms := by
  unfold RedisString.live
  constructor
  · intro h
    obtain ⟨⟨v, ms⟩, hs, rfl⟩ := Option.map_eq_some_iff.1 h
    obtain ⟨hs, halive⟩ := Option.filter_eq_some_iff.1 hs
    exact ⟨ms, hs, by simpa using halive⟩
  · rintro ⟨ms, rfl, halive⟩
    simp [Option.filter, halive]

namespace SameClaim

variable {now now' : ℤ} {o : Option MemoryClaim} {o' : Option RedisString}

theorem none_none (now : ℤ) : SameClaim now none none := ⟨by simp, by simp⟩

/-- The holder of a claim in force. -/
theorem live (h : SameClaim now o o') :
    RedisString.live (unixMilli now) o' =
      (o.filter fun claim => decide (now < claim.expires)).map MemoryClaim.holder := by
  refine Option.ext fun holder => ?_
  rw [RedisString.live_eq_some, Option.map_eq_some_iff]
  constructor
  · rintro ⟨ms, hs⟩
    obtain ⟨claim, hc, hholder, -, halive⟩ := (h.same holder ms).1 hs
    exact ⟨claim, Option.filter_eq_some_iff.2 ⟨hc, by simpa using halive⟩, hholder⟩
  · rintro ⟨claim, hc, hholder⟩
    obtain ⟨hc, halive⟩ := Option.filter_eq_some_iff.1 hc
    exact ⟨_, (h.same holder _).2 ⟨claim, hc, hholder, rfl, by simpa using halive⟩⟩

theorem set (holder : String) (hnow : Whole now) {expires : ℤ} (hexp : Whole expires) :
    SameClaim now (some ⟨holder, expires⟩) (some ⟨holder, unixMilli expires⟩) := by
  refine ⟨by rintro claim ⟨⟩; exact hexp, fun holder' ms => ?_⟩
  constructor
  · rintro ⟨⟨⟩, hlt⟩
    exact ⟨_, rfl, rfl, rfl, (hnow.lt_iff hexp).1 hlt⟩
  · rintro ⟨claim, ⟨⟩, rfl, rfl, hlt⟩
    exact ⟨rfl, (hnow.lt_iff hexp).2 hlt⟩

/-- A claim set on both sides, for a duration. -/
theorem insert {κ : Type} [DecidableEq κ] {t : Table κ MemoryClaim} {t' : Table String RedisString}
    {i j : κ} {i' j' : String} (holder : String) (hnow : Whole now) {ttl : ℤ} (hdvd : 10 ^ 6 ∣ ttl)
    (hpos : 0 < ttl) (hkey : i = j ↔ i' = j') (h : SameClaim now (t.lookup i) (t'.lookup i')) :
    SameClaim now ((t.insert j ⟨holder, now + ttl⟩).lookup i)
      ((t'.insert j' ⟨holder, unixMilli now + milliseconds ttl⟩).lookup i') := by
  by_cases hij : i = j
  · rw [← hkey.1 hij, ← hij, AList.lookup_insert, AList.lookup_insert, ← unixMilli_add now hdvd]
    exact set holder hnow (hnow.add hdvd hpos.le)
  · rwa [AList.lookup_insert_ne hij, AList.lookup_insert_ne (mt hkey.2 hij)]

theorem mono (h : SameClaim now o o') (hnow' : Whole now') (hle : now ≤ now')
    (hms : unixMilli now ≤ unixMilli now') : SameClaim now' o o' := by
  refine ⟨h.whole, fun holder ms => ?_⟩
  constructor
  · rintro ⟨hs, hlt⟩
    obtain ⟨claim, hc, hholder, hexp, -⟩ := (h.same holder ms).1 ⟨hs, by omega⟩
    exact ⟨claim, hc, hholder, hexp, (hnow'.lt_iff (h.whole claim hc)).1 (by omega)⟩
  · rintro ⟨claim, hc, hholder, rfl, hlt⟩
    have hlt' := (hnow'.lt_iff (h.whole claim hc)).2 hlt
    exact ⟨((h.same holder _).2 ⟨claim, hc, hholder, rfl, by omega⟩).1, hlt'⟩

/-- Dropping a claim that has expired changes nothing. -/
theorem sweep (h : SameClaim now o o') :
    SameClaim now (o.filter fun claim => !decide (claim.expires ≤ now)) o' := by
  refine ⟨fun claim hc => h.whole claim (Option.filter_eq_some_iff.1 hc).1, fun holder ms => ?_⟩
  rw [h.same]
  simp only [Option.filter_eq_some_iff, Bool.not_eq_true', decide_eq_false_iff_not, not_le]
  constructor
  · rintro ⟨claim, hc, hholder, hexp, hlt⟩
    exact ⟨claim, ⟨hc, hlt⟩, hholder, hexp, hlt⟩
  · rintro ⟨claim, ⟨hc, -⟩, hrest⟩
    exact ⟨claim, hc, hrest⟩

/-- Giving a claim up: memory drops it whenever it is the holder's, Redis when it is in force. -/
theorem release (h : SameClaim now o o') (holder : String) :
    SameClaim now (o.filter fun claim => decide (claim.holder ≠ holder))
      (if RedisString.live (unixMilli now) o' = some holder then none else o') := by
  refine ⟨fun claim hc => h.whole claim (Option.filter_eq_some_iff.1 hc).1, fun holder' ms => ?_⟩
  simp only [Option.filter_eq_some_iff, decide_eq_true_eq]
  constructor
  · rintro ⟨hs, hlt⟩
    split_ifs at hs
    rename_i hlive
    obtain ⟨claim, hc, hholder, hrest⟩ := (h.same holder' ms).1 ⟨hs, hlt⟩
    refine ⟨claim, ⟨hc, ?_⟩, hholder, hrest⟩
    rintro rfl
    exact hlive (RedisString.live_eq_some.2 ⟨ms, by rw [hs, hholder], hlt⟩)
  · rintro ⟨claim, ⟨hc, hne⟩, hholder, hexp, hlt⟩
    obtain ⟨hs, hms⟩ := (h.same holder' ms).2 ⟨claim, hc, hholder, hexp, hlt⟩
    refine ⟨?_, hms⟩
    rw [if_neg, hs]
    intro hlive
    obtain ⟨ms', hs', -⟩ := RedisString.live_eq_some.1 hlive
    rw [hs] at hs'
    cases hs'
    exact hne hholder

end SameClaim

/-! ## The relation -/

/-- The two drivers are in the same state at `now`, after `drawn queue` numbers at most were drawn
on `queue`. -/
structure Related (c : Codec) (now : ℤ) (drawn : String → ℕ) (mem : MemoryQueue)
    (red : RedisQueue) : Prop where
  memOpen : mem.closed = false
  redOpen : red.closed = false
  queues : ∀ queue, ∃ num, Mirrors c queue (drawn queue) mem (red.keys queue) num
  uniques : ∀ queue key, SameClaim now (mem.uniques.lookup ⟨queue, key⟩)
    ((red.keys queue).unique.lookup key)
  once : ∀ key, SameClaim now (mem.once.lookup key) (red.once.lookup key)

theorem related_empty (c : Codec) (now : ℤ) :
    Related c now (fun _ => 0) MemoryQueue.empty RedisQueue.empty where
  memOpen := rfl
  redOpen := rfl
  queues queue := by
    refine ⟨fun _ => 0, consistent_empty, le_rfl, by norm_num, ?_, fun _ _ => rfl, ?_, ?_, ?_⟩ <;>
      simp [MemoryQueue.empty]
  uniques queue key := .none_none now
  once key := .none_none now

namespace Related

variable {c : Codec} {now now' : ℤ} {drawn drawn' : String → ℕ} {mem mem' : MemoryQueue}
  {red : RedisQueue}

theorem mono (h : Related c now drawn mem red) (hnow : Whole now) (hnow' : Whole now')
    (hle : now ≤ now') : Related c now' drawn mem red where
  memOpen := h.memOpen
  redOpen := h.redOpen
  queues := h.queues
  uniques queue key := (h.uniques queue key).mono hnow' hle ((hnow.le_iff hnow').2 hle)
  once key := (h.once key).mono hnow' hle ((hnow.le_iff hnow').2 hle)

/-- An operation on one queue. -/
theorem onQueue (h : Related c now drawn mem red) {queue : String} {k : RedisKeys}
    (hclosed : mem'.closed = mem.closed) (hseq : mem.seq ≤ mem'.seq)
    (hothers : ∀ queue' ≠ queue, ∀ id,
      mem'.jobs.lookup ⟨queue', id⟩ = mem.jobs.lookup ⟨queue', id⟩)
    (hdrawn : ∀ queue' ≠ queue, drawn' queue' = drawn queue')
    (hmirrors : ∃ num, Mirrors c queue (drawn' queue) mem' k num)
    (huniques : ∀ queue' ≠ queue, ∀ key,
      SameClaim now (mem'.uniques.lookup ⟨queue', key⟩) ((red.keys queue').unique.lookup key))
    (hunique : ∀ key, SameClaim now (mem'.uniques.lookup ⟨queue, key⟩) (k.unique.lookup key))
    (honce : ∀ key, SameClaim now (mem'.once.lookup key) (red.once.lookup key)) :
    Related c now drawn' mem' (red.setKeys queue k) where
  memOpen := hclosed.trans h.memOpen
  redOpen := h.redOpen
  queues queue' := by
    by_cases hq : queue' = queue
    · subst hq
      rw [RedisQueue.setKeys_keys_self]
      exact hmirrors
    · obtain ⟨num, hm⟩ := h.queues queue'
      rw [RedisQueue.setKeys_keys_ne _ _ hq, hdrawn queue' hq]
      exact ⟨num, hm.of_eq (hothers queue' hq) hseq rfl rfl rfl le_rfl hm.bound⟩
  uniques queue' key := by
    by_cases hq : queue' = queue
    · subst hq
      rw [RedisQueue.setKeys_keys_self]
      exact hunique key
    · rw [RedisQueue.setKeys_keys_ne _ _ hq]
      exact huniques queue' hq key
  once := honce

end Related

end Gombit.Jobs
