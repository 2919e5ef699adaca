import Gombit.Foundations.Run
import Gombit.Jobs.RedisEffects

/-!
# How the Redis queue represents its jobs

Every job of a queue has a hash and is a member of exactly one of the three sorted sets, under its
`member` in `pending` and `reserved` and under its id in `failed`. `Sound` says so for one id, and
every script keeps it for all ids (`Step.consistent`), as long as the sequence number still fits
into the sixteen digits a member reserves for it.

* `Frame`: a script about one job leaves every other job alone.
* `run_reserveScript`: the loop of `reserveScript` ends in its first iteration.
* `representation`: the invariant over every run of the scripts, and what it gives.
* `representation_limit`: the number 10¹⁶ − 1 is written with seventeen digits, and the job
  pushed under it is lost.
-/

namespace Gombit.Jobs

open Redis List

/-! ## Members -/

/-- The sequence numbers whose members have sixteen digits. -/
def seqLimit : ℕ := 10 ^ 16 - 1

theorem toDouble_lt {n : ℕ} (h : n < seqLimit) : toDouble n < 10 ^ 16 := by
  simp only [seqLimit] at h
  rcases Nat.lt_or_ge n (2 ^ 53) with hlt | hge
  · rw [toDouble_of_le hlt.le]
    omega
  · have hlog : Nat.log2 n = 53 := by
      rw [Nat.log2_eq_iff (by omega)]
      omega
    rw [toDouble, if_neg (by omega), hlog, roundTo]
    split <;> omega

theorem memberID_member {n : ℕ} (h : n < seqLimit) (id : String) :
    memberID (member n id) = id := by
  have hlen : (formatWidth 16 (toDouble n)).length = 16 := by
    rw [formatWidth, if_pos (toDouble_lt h), length_padDigits]
  have hdrop : (formatWidth 16 (toDouble n) ++ ':' :: id.toList).drop 17 = id.toList := by
    rw [drop_append, hlen, drop_of_length_le (by omega)]
    rfl
  rw [memberID, member, String.toList_ofList, hdrop, String.ofList_toList]

/-- Members are ordered by their numbers, as the script reads them, and then by id. -/
theorem member_lt_iff {n n' : ℕ} (hn : n < seqLimit) (hn' : n' < seqLimit) (id id' : String) :
    member n id < member n' id' ↔
      toDouble n < toDouble n' ∨ toDouble n = toDouble n' ∧ ':' :: id.toList < ':' :: id'.toList := by
  have hlt := toDouble_lt hn
  have hlt' := toDouble_lt hn'
  rw [String.lt_iff_toList_lt, member, member, String.toList_ofList, String.toList_ofList,
    formatWidth, if_pos hlt, formatWidth, if_pos hlt']
  exact padDigits_append_lt hlt hlt' _ _

/-! ## Occurrences -/

/-- The job a member of a sorted set stands for. -/
def idOf : SetKey → String → String
  | .failed, m => m
  | _, m => memberID m

variable {q q' : RedisKeys} {id m receipt job : String} {score now server ttl : ℤ} {c : Call}

namespace RedisKeys

/-- The places where a job id occurs. -/
def occurrences (q : RedisKeys) (id : String) : List (SetKey × String) :=
  [SetKey.pending, SetKey.reserved, SetKey.failed].flatMap fun key =>
    ((q.set key).keys.filter fun m => idOf key m = id).map (Prod.mk key)

/-- The id occurs in the place `p`, and nowhere else. -/
def OccursOnly (q : RedisKeys) (id : String) (p : Option (SetKey × String)) : Prop :=
  ∀ key m, m ∈ q.set key ∧ idOf key m = id ↔ p = some (key, m)

variable {key : SetKey}

theorem mem_occurrences : (key, m) ∈ q.occurrences id ↔ m ∈ q.set key ∧ idOf key m = id := by
  unfold occurrences
  cases key <;> simp [AList.mem_keys]

/-- Lists without duplicates, one for each set, are one list without duplicates. -/
theorem nodup_tagged {l : SetKey → List String} (hl : ∀ key, (l key).Nodup) :
    ([SetKey.pending, SetKey.reserved, SetKey.failed].flatMap fun key =>
      (l key).map (Prod.mk key)).Nodup := by
  rw [nodup_flatMap]
  refine ⟨fun key _ => (hl key).map fun _ _ h => (Prod.mk.inj h).2, ?_⟩
  have hkeys : [SetKey.pending, SetKey.reserved, SetKey.failed].Nodup := by decide
  refine hkeys.imp fun {a b} hne => ?_
  rintro ⟨key, m⟩ ha hb
  obtain ⟨_, -, ha⟩ := mem_map.1 ha
  obtain ⟨_, -, hb⟩ := mem_map.1 hb
  exact hne ((congrArg Prod.fst ha).trans (congrArg Prod.fst hb).symm)

theorem nodup_occurrences (q : RedisKeys) (id : String) : (q.occurrences id).Nodup :=
  nodup_tagged fun key => (q.set key).keys_nodup.filter _

theorem occurrences_eq {p : Option (SetKey × String)} (h : q.OccursOnly id p) :
    q.occurrences id = p.toList := by
  have hperm : (q.occurrences id).Perm p.toList := by
    refine (perm_ext_iff_of_nodup (q.nodup_occurrences id) ?_).2 ?_
    · cases p <;> simp
    · rintro ⟨key, m⟩
      rw [mem_occurrences, h key m, Option.mem_toList]
  cases p with
  | none => exact perm_nil.1 hperm
  | some x => exact perm_singleton.1 hperm

/-- A change about the job `id` only: the other jobs keep their hash, their places and their
scores. -/
structure Frame (q q' : RedisKeys) (id : String) : Prop where
  job : ∀ id' ≠ id, q'.job id' = q.job id'
  set : ∀ key m, idOf key m ≠ id → (q'.set key).lookup m = (q.set key).lookup m

namespace Frame

variable {q q' q'' : RedisKeys} {id m : String} {key : SetKey}

theorem refl (q : RedisKeys) (id : String) : Frame q q id := ⟨fun _ _ => rfl, fun _ _ _ => rfl⟩

theorem trans (h : Frame q q' id) (h' : Frame q' q'' id) : Frame q q'' id where
  job id' hne := (h'.job id' hne).trans (h.job id' hne)
  set key m hne := (h'.set key m hne).trans (h.set key m hne)

theorem setJob (hf : Frame q q' id) (h : JobHash) : Frame q (q'.setJob id h) id :=
  hf.trans ⟨fun _ hne => Function.update_of_ne hne .., fun _ _ _ => rfl⟩

theorem incr (hf : Frame q q' id) : Frame q q'.incr id := ⟨hf.job, hf.set⟩

theorem zadd (hf : Frame q q' id) (hm : idOf key m = id) : Frame q (q'.zadd key score m) id := by
  refine ⟨hf.job, fun key' m' hne => ?_⟩
  rw [lookup_zadd_ne, hf.set key' m' hne]
  rintro ⟨rfl, rfl⟩
  exact hne hm

theorem zrem (hf : Frame q q' id) (hm : idOf key m = id) : Frame q (q'.zrem key m) id := by
  refine ⟨hf.job, fun key' m' hne => ?_⟩
  rw [lookup_zrem_ne, hf.set key' m' hne]
  rintro ⟨rfl, rfl⟩
  exact hne hm

theorem queued (hf : Frame q q' id) (hseq : q'.seq + 1 < seqLimit) (h : JobHash) (at_ : ℤ) :
    Frame q (q'.queued id h at_) id :=
  (hf.incr.setJob _).zadd (memberID_member hseq id)

theorem occursOnly (hf : Frame q q' id) {id' : String} {p : Option (SetKey × String)}
    (hne : id' ≠ id) (h : q.OccursOnly id' p) : q'.OccursOnly id' p := by
  intro key m
  rw [← h key m]
  refine and_congr_left fun hm => ?_
  rw [← AList.lookup_isSome, ← AList.lookup_isSome, hf.set key m (by rw [hm]; exact hne)]

end Frame

/-! ## One job, one place -/

namespace OccursOnly

variable {q : RedisKeys} {id m : String} {key : SetKey} {p : Option (SetKey × String)}

theorem mem (h : q.OccursOnly id (some (key, m))) : m ∈ q.set key := ((h key m).2 rfl).1

theorem idOf_eq (h : q.OccursOnly id (some (key, m))) : idOf key m = id := ((h key m).2 rfl).2

theorem of_set_eq (h : q.OccursOnly id p) (hset : q'.set = q.set) : q'.OccursOnly id p := by
  intro key m
  rw [hset]
  exact h key m

theorem setJob (h : q.OccursOnly id p) (id' : String) (hash : JobHash) :
    (q.setJob id' hash).OccursOnly id p :=
  h

theorem zrem (h : q.OccursOnly id (some (key, m))) : (q.zrem key m).OccursOnly id none := by
  intro key' m'
  rw [mem_zrem, and_assoc, h key' m']
  simp only [Option.some.injEq, Prod.mk.injEq, reduceCtorEq, iff_false, not_and]
  rintro hne rfl rfl
  exact hne rfl rfl

theorem zadd (h : q.OccursOnly id none) (hm : idOf key m = id) :
    (q.zadd key score m).OccursOnly id (some (key, m)) := by
  intro key' m'
  have hnone := h key' m'
  rw [mem_zadd]
  simp only [reduceCtorEq, iff_false, not_and] at hnone
  simp only [Option.some.injEq, Prod.mk.injEq]
  constructor
  · rintro ⟨⟨rfl, rfl⟩ | hmem, hid⟩
    · exact ⟨rfl, rfl⟩
    · exact absurd hid (hnone hmem)
  · rintro ⟨rfl, rfl⟩
    exact ⟨.inl ⟨rfl, rfl⟩, hm⟩

theorem zadd_self (h : q.OccursOnly id (some (key, m))) :
    (q.zadd key score m).OccursOnly id (some (key, m)) := by
  intro key' m'
  rw [mem_zadd, ← h key' m', or_and_right, or_iff_right_iff_imp]
  rintro ⟨⟨rfl, rfl⟩, hid⟩
  exact ⟨h.mem, hid⟩

theorem queued (h : q.OccursOnly id none) (hseq : q.seq + 1 < seqLimit) (hash : JobHash) (at_ : ℤ) :
    (q.queued id hash at_).OccursOnly id (some (.pending, member (q.seq + 1) id)) :=
  zadd (q := q.incr.setJob id _) h (memberID_member hseq id)

end OccursOnly

/-- A hash that fits the job's place: with an envelope, a receipt exactly in `reserved` and a
failure exactly in `failed`. -/
structure Fits (id : String) (h : JobHash) (key : SetKey) (m : String) : Prop where
  env : h.env.isSome
  member : key ≠ .failed → h.member = some m
  failed : key = .failed → m = id
  receipt : ∃ r, h.receipt = some r ∧ (r ≠ "" ↔ key = .reserved)
  failure : h.failure.isSome ↔ key = .failed

theorem Fits.exists {h : JobHash} (hf : Fits id h key m) : h ≠ .absent := by
  rintro rfl
  cases hf.env

theorem Fits.failure_eq_none {h : JobHash} (hf : Fits id h key m) (hkey : key ≠ .failed) :
    h.failure = none := by
  rwa [← Option.not_isSome_iff_eq_none, hf.failure]

/-- The job `id` is stored with one place, or not at all. -/
inductive Sound (q : RedisKeys) (id : String) : Prop
  | absent (hash : q.job id = .absent) (nowhere : q.OccursOnly id none)
  | present {key : SetKey} {m : String} (fits : Fits id (q.job id) key m)
      (only : q.OccursOnly id (some (key, m)))

/-- Every job is. -/
def Consistent (q : RedisKeys) : Prop := ∀ id, q.Sound id

theorem Sound.of_frame {id' : String} (h : q.Sound id') (hf : Frame q q' id) (hne : id' ≠ id) :
    q'.Sound id' := by
  cases h with
  | absent hash nowhere => exact .absent ((hf.job id' hne).trans hash) (hf.occursOnly hne nowhere)
  | present fits only =>
    refine .present ?_ (hf.occursOnly hne only)
    rw [hf.job id' hne]
    exact fits

theorem Consistent.of_frame (h : q.Consistent) (hf : Frame q q' id) (hs : q'.Sound id) :
    q'.Consistent := by
  intro id'
  by_cases hid : id' = id
  · exact hid ▸ hs
  · exact (h id').of_frame hf hid

/-- A job under a lease is in `reserved`, under its member. -/
theorem Consistent.leased {r : String} (h : q.Consistent) (hr : (q.job id).receipt = some r)
    (hne : r ≠ "") :
    ∃ m, Fits id (q.job id) .reserved m ∧ q.OccursOnly id (some (.reserved, m)) := by
  cases h id with
  | absent hash _ => simp [hash, JobHash.absent] at hr
  | @present key m fits only =>
    obtain ⟨r', hr', hkey⟩ := fits.receipt
    obtain rfl : r = r' := by simpa [hr] using hr'
    obtain rfl := hkey.1 hne
    exact ⟨m, fits, only⟩

/-- A member of a set has its job's hash. -/
theorem Consistent.fits (h : q.Consistent) (hm : m ∈ q.set key) :
    Fits (idOf key m) (q.job (idOf key m)) key m ∧
      q.OccursOnly (idOf key m) (some (key, m)) := by
  cases h (idOf key m) with
  | absent _ nowhere => exact absurd ((nowhere key m).1 ⟨hm, rfl⟩) (by simp)
  | @present key' m' fits only =>
    obtain ⟨rfl, rfl⟩ : key' = key ∧ m' = m := by simpa using (only key m).1 ⟨hm, rfl⟩
    exact ⟨fits, only⟩

/-- A job with a hash occurs somewhere. -/
theorem Consistent.exists (h : q.Consistent) (hm : m ∈ q.set key) :
    q.job (idOf key m) ≠ .absent :=
  (h.fits hm).1.exists

/-- Reading a page of failed jobs changes nothing when every member has its job. -/
theorem run_scanRows (h : q.Consistent) (want : ℕ) (rows : List (ℤ × String))
    (hrows : ∀ row ∈ rows, row.2 ∈ q.set .failed) (page : FailedPage) :
    ∃ page', (scanRows want rows page).run q = .ok page' q := by
  induction rows generalizing page with
  | nil => exact ⟨page, rfl⟩
  | cons row rows ih =>
    have hfits := (h.fits (hrows row (by simp))).1
    rw [run_scanRows_cons q hfits.env (hfits.failure.2 rfl)]
    split
    · exact ⟨_, rfl⟩
    · exact ih (fun row hrow => hrows row (mem_cons_of_mem _ hrow)) _

/-! ## Scripts as steps -/

/-- A run of one of the queue's scripts, with its arguments. -/
inductive Call
  | push (env : String) (at_ : ℤ) (id : String)
  | pushUnique (server : ℤ) (env : String) (at_ : ℤ) (id key : String) (ttl : ℤ) (untilDone : Bool)
  | reserve (now deadline : ℤ) (receipt : String)
  | ack (server : ℤ) (id receipt : String)
  | release (id receipt : String) (at_ : ℤ) (uncount : Bool)
  | extend (id receipt : String) (deadline : ℤ)
  | bury (server : ℤ) (id receipt : String) (failedAt : ℤ) (failure : String)
  | retryFailed (server : ℤ) (id : String) (now : ℤ)
  | forgetFailed (id : String)
  | purgeFailed (before : Option ℤ) (batch : ℕ)
  | failedScan (want look : ℕ) (cursor : Option (ℤ × String))
  | stats (now : ℤ)
  deriving DecidableEq

/-- The data after the call. -/
def Call.exec (q : RedisKeys) : Call → RedisKeys
  | .push env at_ id => after (pushScript env at_ id) q
  | .pushUnique server env at_ id key ttl untilDone =>
    after (pushUniqueScript server env at_ id key ttl untilDone) q
  | .reserve now deadline receipt => after (reserveScript now deadline receipt) q
  | .ack server id receipt => after (ackScript server id receipt) q
  | .release id receipt at_ uncount => after (releaseScript id receipt at_ id uncount) q
  | .extend id receipt deadline => after (extendScript id receipt deadline) q
  | .bury server id receipt failedAt failure =>
    after (buryScript server id receipt id failedAt failure) q
  | .retryFailed server id now => after (retryFailedScript server id now) q
  | .forgetFailed id => after (forgetFailedScript id) q
  | .purgeFailed before batch => after (purgeFailedScript before batch) q
  | .failedScan want look cursor => after (failedScanScript want look cursor) q
  | .stats now => after (statsScript now) q

/-- What the methods see to: the receipt of a reservation is a new UUID, and a settling method
refuses a delivery without a receipt. -/
def Call.Sent : Call → Prop
  | .reserve _ _ receipt => receipt ≠ ""
  | .ack _ _ receipt => receipt ≠ ""
  | .release _ receipt _ _ => receipt ≠ ""
  | .extend _ receipt _ => receipt ≠ ""
  | .bury _ _ receipt _ _ => receipt ≠ ""
  | _ => True

/-- One script, run by any client. -/
structure Step (q : RedisKeys) (c : Call) (q' : RedisKeys) : Prop where
  sent : c.Sent
  exec : q' = c.exec q

/-- The calls that remove a job: an ack under its current receipt, and the deletion of a failed
job. -/
def Call.Removes (q : RedisKeys) (id : String) : Call → Prop
  | .ack _ id' receipt => id' = id ∧ (q.job id).receipt = some receipt
  | .forgetFailed id' => id' = id ∧ id ∈ q.set .failed
  | .purgeFailed before batch => id ∈ purgeable before batch (q.set .failed)
  | _ => False

/-- What a script may do: nothing, move one job to another place with its envelope, or remove
jobs. -/
inductive Effect (q : RedisKeys) (c : Call) (q' : RedisKeys) : Prop
  | same (set : q'.set = q.set) (job : q'.job = q.job)
  | moved (id : String) (frame : Frame q q' id) (sound : q'.Sound id)
      (env : q.job id ≠ .absent → (q'.job id).env = (q.job id).env)
  | removed (ids : List String) (removes : ∀ id ∈ ids, c.Removes q id)
      (job : ∀ id, q'.job id = if id ∈ ids then .absent else q.job id)
      (set : ∀ key m, m ∈ q'.set key ↔ m ∈ q.set key ∧ idOf key m ∉ ids)

theorem Effect.consistent (h : q.Consistent) (he : Effect q c q') : q'.Consistent := by
  cases he with
  | same set job =>
    intro id
    cases h id with
    | absent hash nowhere => exact .absent (by rw [job, hash]) (nowhere.of_set_eq set)
    | present fits only => exact .present (by rw [job]; exact fits) (only.of_set_eq set)
  | moved id frame sound env => exact h.of_frame frame sound
  | removed ids removes job set =>
    intro id
    by_cases hid : id ∈ ids
    · refine .absent (by rw [job, if_pos hid]) fun key m => ?_
      rw [set]
      simp only [reduceCtorEq, iff_false]
      rintro ⟨⟨-, hm⟩, rfl⟩
      exact hm hid
    · have honly : ∀ {p}, q.OccursOnly id p → q'.OccursOnly id p := by
        intro p hp key m
        rw [← hp key m, set]
        constructor
        · rintro ⟨⟨hm, -⟩, hi⟩
          exact ⟨hm, hi⟩
        · rintro ⟨hm, hi⟩
          exact ⟨⟨hm, hi ▸ hid⟩, hi⟩
      cases h id with
      | absent hash nowhere => exact .absent (by rw [job, if_neg hid, hash]) (honly nowhere)
      | present fits only => exact .present (by rw [job, if_neg hid]; exact fits) (honly only)

theorem Effect.env (he : Effect q c q') (hid : q.job id ≠ .absent) :
    (q'.job id).env = (q.job id).env ∨ c.Removes q id := by
  cases he with
  | same set job => rw [job]; exact .inl rfl
  | moved id' frame sound env =>
    by_cases hne : id = id'
    · subst hne
      exact .inl (env hid)
    · rw [frame.job id hne]
      exact .inl rfl
  | removed ids removes job set =>
    by_cases hmem : id ∈ ids
    · exact .inr (removes id hmem)
    · rw [job, if_neg hmem]
      exact .inl rfl

/-! ## Every script keeps the invariant -/

section Effects

variable {q : RedisKeys} {id r m : String}

/-- A job queued again, or for the first time, from nowhere. -/
theorem moved_queued {q₁ : RedisKeys} {h : JobHash} {at_ : ℤ} (hf : Frame q q₁ id)
    (hnone : q₁.OccursOnly id none) (hseq : q₁.seq + 1 < seqLimit) (henv : h.env.isSome)
    (hreceipt : h.receipt = some "") (hfailure : h.failure = none)
    (hkeep : q.job id ≠ .absent → h.env = (q.job id).env) : Effect q c (q₁.queued id h at_) := by
  have hjob : (q₁.queued id h at_).job id =
      { h with member := some (member (q₁.seq + 1) id) } := by simp [queued]
  refine .moved id (hf.queued hseq h at_) (.present ?_ (hnone.queued hseq h at_)) ?_
  · rw [hjob]
    exact ⟨henv, fun _ => rfl, by simp, ⟨"", hreceipt, by simp⟩, by simp [hfailure]⟩
  · rw [hjob]
    exact hkeep

/-- Setting a uniqueness key changes neither jobs nor sets. -/
theorem frame_of_eq (hset : q'.set = q.set) (hjob : q'.job = q.job) : Frame q q' id :=
  ⟨fun _ _ => by rw [hjob], fun _ _ _ => by rw [hset]⟩

theorem nowhere_of_absent (h : q.Consistent) (habs : q.job id = .absent) : q.OccursOnly id none := by
  cases h id with
  | absent _ nowhere => exact nowhere
  | present fits _ => exact absurd habs fits.exists

end Effects

theorem idOf_eq_memberID (h : key ≠ .failed) : idOf key m = memberID m := by
  cases key <;> first | rfl | exact absurd rfl h

theorem mem_of_pick {since : ℤ} (h : pick now q = some (key, since, m)) :
    key ≠ .failed ∧ m ∈ q.set key := by
  obtain ⟨hkey, hlookup, -⟩ := pick_spec h
  exact ⟨hkey, AList.lookup_isSome.1 (by simp [hlookup])⟩

/-- **The loop of a reservation ends in its first iteration**: the first member due is taken, and
its job has a hash. -/
theorem run_reserveScript (h : q.Consistent) (now deadline : ℤ) (receipt : String) :
    (reserveScript now deadline receipt).run q =
      match pick (onAbs toDouble now) q with
      | none => .ok none q
      | some (source, since, m) =>
        .ok (some (q.leaseReply source since m)) (q.leasedOut deadline receipt source m) := by
  have hrun : (reserveScript now deadline receipt).run q =
      (reserveLoop now deadline receipt
        ((q.set .pending).keys.length + (q.set .reserved).keys.length)).run q := by
    simp [reserveScript]
  rw [hrun]
  cases hp : pick (onAbs toDouble now) q with
  | none =>
    cases (q.set .pending).keys.length + (q.set .reserved).keys.length with
    | zero => rfl
    | succ fuel => rw [run_reserveLoop, hp]
  | some x =>
    obtain ⟨source, since, m⟩ := x
    obtain ⟨hsource, hm⟩ := mem_of_pick hp
    have hpos : 0 < (q.set .pending).keys.length + (q.set .reserved).keys.length := by
      have hlen := length_pos_of_mem (AList.mem_keys.1 hm)
      cases source
      · omega
      · omega
      · exact absurd rfl hsource
    obtain ⟨fuel, hfuel⟩ := Nat.exists_eq_add_of_lt hpos
    have habs : q.job (memberID m) ≠ .absent := idOf_eq_memberID hsource ▸ h.exists hm
    rw [hfuel, Nat.zero_add, run_reserveLoop, hp]
    simp only [habs, if_false]

variable {source : SetKey} {calls : List Call}

theorem frame_leasedOut (q : RedisKeys) (deadline : ℤ) (receipt : String)
    (hid : idOf source m = memberID m) :
    Frame q (q.leasedOut deadline receipt source m) (memberID m) :=
  (((Frame.refl q _).zrem hid).setJob _).zadd rfl

/-- A leased job sits in `reserved` and nowhere else. -/
theorem moved_leasedOut {deadline : ℤ} (h : q.Consistent) (hm : m ∈ q.set source)
    (hsource : source ≠ .failed) (hr : receipt ≠ "") :
    Effect q c (q.leasedOut deadline receipt source m) := by
  have hid : idOf source m = memberID m := idOf_eq_memberID hsource
  obtain ⟨hfits, honly⟩ := h.fits hm
  rw [hid] at hfits honly
  refine .moved (memberID m) (frame_leasedOut q deadline receipt hid)
    (.present ?_ ((honly.zrem.setJob _ _).zadd rfl)) fun _ => by simp [leasedOut]
  simp only [leasedOut, zadd_job, setJob_job_self]
  exact ⟨hfits.env, fun _ => hfits.member hsource, by simp, ⟨receipt, rfl, by simpa using hr⟩,
    by simp [hfits.failure_eq_none hsource]⟩

/-- Removing one job that sits in one place. -/
theorem removed_one {place : SetKey × String} (honly : q.OccursOnly id (some place))
    (hc : c.Removes q id) (hjob : q'.job = Function.update q.job id .absent)
    (hset : ∀ key m, m ∈ q'.set key ↔ (key, m) ≠ place ∧ m ∈ q.set key) : Effect q c q' := by
  refine .removed [id] (by simpa using hc) (fun id' => ?_) fun key m => ?_
  · rw [hjob, Function.update_apply]
    simp
  · rw [hset, mem_singleton]
    constructor
    · rintro ⟨hne, hm⟩
      refine ⟨hm, fun hid => hne ?_⟩
      simpa using ((honly key m).1 ⟨hm, hid⟩).symm
    · rintro ⟨hm, hid⟩
      refine ⟨?_, hm⟩
      rintro rfl
      exact hid honly.idOf_eq

/-- A key that would expire at once is refused, and nothing is pushed. -/
theorem exec_pushUnique_of_nonpos {env : String} {at_ : ℤ} {key : String} {untilDone : Bool}
    (httl : ttl ≤ 0) : (Call.pushUnique server env at_ id key ttl untilDone).exec q = q := by
  simp only [Call.exec, after, pushUniqueScript, EStateM.run_bind, run_getUnique]
  cases getKey q.unique server key with
  | some holder => rfl
  | none => by_cases habs : q.job id = .absent <;> simp [habs, run_setUnique_refused _ _ _ httl]

section CallEffects

variable {q : RedisKeys} (h : q.Consistent)

include h

theorem push_effect {env : String} {at_ : ℤ}
    (hseq : ((Call.push env at_ id).exec q).seq < seqLimit) :
    Effect q (.push env at_ id) ((Call.push env at_ id).exec q) := by
  have hrun := run_pushScript q id env at_
  by_cases habs : q.job id = .absent
  · rw [if_pos habs] at hrun
    rw [Call.exec, after_eq hrun] at hseq ⊢
    exact moved_queued (.refl q id) (nowhere_of_absent h habs) hseq rfl rfl rfl
      fun hne => absurd habs hne
  · rw [if_neg habs] at hrun
    rw [Call.exec, after_eq hrun]
    exact .same rfl rfl

theorem reserve_effect {deadline : ℤ} (hr : receipt ≠ "") :
    Effect q (.reserve now deadline receipt) ((Call.reserve now deadline receipt).exec q) := by
  have hrun := run_reserveScript h now deadline receipt
  cases hp : pick (onAbs toDouble now) q with
  | none =>
    rw [hp] at hrun
    rw [Call.exec, after_eq hrun]
    exact .same rfl rfl
  | some x =>
    obtain ⟨source, since, m⟩ := x
    obtain ⟨hsource, hm⟩ := mem_of_pick hp
    rw [hp] at hrun
    rw [Call.exec, after_eq hrun]
    exact moved_leasedOut h hm hsource hr

theorem ack_effect (hr : receipt ≠ "") :
    Effect q (.ack server id receipt) ((Call.ack server id receipt).exec q) := by
  by_cases hreceipt : (q.job id).receipt = some receipt
  · obtain ⟨m, hfits, honly⟩ := h.leased hreceipt hr
    rw [Call.exec, after_eq (run_ackScript q id server hreceipt (hfits.member (by simp)))]
    have hpending : m ∉ q.set .pending := fun hm => by
      simpa using (honly .pending m).1 ⟨hm, honly.idOf_eq⟩
    refine removed_one honly ⟨rfl, hreceipt⟩ (by simp [setJob]) fun key m' => ?_
    rw [setJob_set, mem_zrem, mem_zrem, releaseUnique_set]
    cases key <;> simp +contextual
    rintro hm rfl
    exact hpending hm
  · rw [Call.exec, after_eq (run_of_receipt_ne q id server hreceipt 0 id false "").1]
    exact .same rfl rfl

theorem pushUnique_effect {env : String} {at_ : ℤ} {key : String} {untilDone : Bool}
    (hseq : ((Call.pushUnique server env at_ id key ttl untilDone).exec q).seq < seqLimit) :
    Effect q (.pushUnique server env at_ id key ttl untilDone)
      ((Call.pushUnique server env at_ id key ttl untilDone).exec q) := by
  rcases le_or_gt ttl 0 with httl | httl
  · rw [exec_pushUnique_of_nonpos httl]
    exact .same rfl rfl
  · have hrun := run_pushUniqueScript q id server env at_ key untilDone httl
    cases hk : getKey q.unique server key with
    | some holder =>
      rw [hk] at hrun
      rw [Call.exec, after_eq hrun]
      exact .same rfl rfl
    | none =>
      simp only [hk] at hrun
      by_cases habs : q.job id = .absent
      · rw [if_pos habs] at hrun
        rw [Call.exec, after_eq hrun] at hseq ⊢
        exact moved_queued (frame_of_eq rfl rfl) ((nowhere_of_absent h habs).of_set_eq rfl) hseq
          rfl rfl rfl fun hne => absurd habs hne
      · rw [if_neg habs] at hrun
        rw [Call.exec, after_eq hrun]
        exact .same rfl rfl

theorem release_effect {at_ : ℤ} {uncount : Bool} (hr : receipt ≠ "")
    (hseq : ((Call.release id receipt at_ uncount).exec q).seq < seqLimit) :
    Effect q (.release id receipt at_ uncount) ((Call.release id receipt at_ uncount).exec q) := by
  by_cases hreceipt : (q.job id).receipt = some receipt
  · obtain ⟨m, hfits, honly⟩ := h.leased hreceipt hr
    have hrun := run_releaseScript q id at_ uncount hreceipt (hfits.member (by simp))
    rw [Call.exec, after_eq hrun] at hseq ⊢
    exact moved_queued ((Frame.refl q id).zrem honly.idOf_eq) honly.zrem hseq hfits.env rfl
      (hfits.failure_eq_none (by simp)) fun _ => rfl
  · rw [Call.exec, after_eq (run_of_receipt_ne q id 0 hreceipt at_ id uncount "").2.1]
    exact .same rfl rfl

theorem extend_effect {deadline : ℤ} (hr : receipt ≠ "") :
    Effect q (.extend id receipt deadline) ((Call.extend id receipt deadline).exec q) := by
  by_cases hreceipt : (q.job id).receipt = some receipt
  · obtain ⟨m, hfits, honly⟩ := h.leased hreceipt hr
    rw [Call.exec, after_eq (run_extendScript q id deadline hreceipt (hfits.member (by simp)))]
    exact .moved id ((Frame.refl q id).zadd honly.idOf_eq) (.present hfits honly.zadd_self)
      fun _ => rfl
  · rw [Call.exec, after_eq (run_of_receipt_ne q id 0 hreceipt deadline id false "").2.2.1]
    exact .same rfl rfl

theorem bury_effect {failedAt : ℤ} {failure : String} (hr : receipt ≠ "") :
    Effect q (.bury server id receipt failedAt failure)
      ((Call.bury server id receipt failedAt failure).exec q) := by
  by_cases hreceipt : (q.job id).receipt = some receipt
  · obtain ⟨m, hfits, honly⟩ := h.leased hreceipt hr
    rw [Call.exec, after_eq (run_buryScript q id server failedAt failure hreceipt
      (hfits.member (by simp)))]
    have hframe : Frame q (q.releaseUnique server id id) id := frame_of_eq (by simp) (by simp)
    have honly' : (q.releaseUnique server id id).OccursOnly id (some (.reserved, m)) :=
      honly.of_set_eq (by simp)
    refine .moved id (((hframe.zrem honly.idOf_eq).setJob _).zadd rfl)
      (.present ?_ ((honly'.zrem.setJob id _).zadd rfl)) fun _ => by simp
    simp only [zadd_job, setJob_job_self]
    exact ⟨hfits.env, by simp, fun _ => rfl, ⟨"", rfl, by simp⟩, by simp⟩
  · rw [Call.exec, after_eq (run_of_receipt_ne q id server hreceipt failedAt id false failure).2.2.2]
    exact .same rfl rfl

/-- A failed job queued again, after changes that touch no job. -/
theorem requeue_effect {q₁ : RedisKeys} (hid : id ∈ q.set .failed) (hset : q₁.set = q.set)
    (hjob : q₁.job = q.job) (hseq : (after (requeue id now) q₁).seq < seqLimit) :
    Effect q c (after (requeue id now) q₁) := by
  obtain ⟨hfits, honly⟩ := h.fits hid
  rw [after_eq (run_requeue q₁ id now)] at hseq ⊢
  have hframe : Frame q q₁ id := frame_of_eq hset hjob
  have honly' : q₁.OccursOnly id (some (.failed, id)) := honly.of_set_eq hset
  rw [hjob]
  exact moved_queued (hframe.zrem rfl) honly'.zrem hseq hfits.env rfl rfl fun _ => rfl

/-- A failed job is left as it is, or queued again after changes that touch no job. -/
theorem exec_retryFailed (hid : id ∈ q.set .failed) :
    (Call.retryFailed server id now).exec q = q ∨
      ∃ q₁, q₁.set = q.set ∧ q₁.job = q.job ∧ q₁.seq = q.seq ∧
        (Call.retryFailed server id now).exec q = after (requeue id now) q₁ := by
  obtain ⟨env, henv⟩ := Option.isSome_iff_exists.1 (h.fits hid).1.env
  obtain ⟨x, hx⟩ := Option.isSome_iff_exists.1 (AList.lookup_isSome.2 hid)
  simp only [idOf] at henv
  simp only [Call.exec, retryFailedScript, after, EStateM.run_bind, run_zset, hx,
    Option.isNone_some, Bool.false_eq_true, if_false, run_hget, henv]
  cases hu : (q.job id).unique with
  | none => exact .inr ⟨q, rfl, rfl, rfl, rfl⟩
  | some key =>
    simp only [EStateM.run_bind, run_getUnique]
    cases (getKey q.unique server key).filter fun holder => decide (holder ≠ id) with
    | some holder => exact .inl rfl
    | none =>
      simp only [EStateM.run_bind, run_hget]
      cases (q.job id).uniqueTTL with
      | none => exact .inl rfl
      | some ttl =>
        rcases le_or_gt ttl 0 with httl | httl
        · exact .inl (by simp [run_setUnique_refused _ _ _ httl])
        · refine .inr ⟨q.claimed server key id ttl, rfl, rfl, rfl, ?_⟩
          simp [run_setUnique' _ _ _ httl]

omit h in
theorem exec_retryFailed_of_notMem (hid : id ∉ q.set .failed) :
    (Call.retryFailed server id now).exec q = q := by
  have hnone : (q.set .failed).lookup id = none := AList.lookup_eq_none.2 hid
  have hrun : (retryFailedScript server id now).run q = .ok .notFailed q := by
    simp [retryFailedScript, hnone]
  rw [Call.exec, after_eq hrun]

theorem retryFailed_effect (hseq : ((Call.retryFailed server id now).exec q).seq < seqLimit) :
    Effect q (.retryFailed server id now) ((Call.retryFailed server id now).exec q) := by
  by_cases hid : id ∈ q.set .failed
  · rcases exec_retryFailed h hid with hsame | ⟨q₁, hset, hjob, -, hq₁⟩
    · rw [hsame]
      exact .same rfl rfl
    · rw [hq₁] at hseq ⊢
      exact requeue_effect h hid hset hjob hseq
  · rw [exec_retryFailed_of_notMem hid]
    exact .same rfl rfl

theorem forgetFailed_effect : Effect q (.forgetFailed id) ((Call.forgetFailed id).exec q) := by
  have hrun := run_forgetFailedScript q id
  by_cases hid : id ∈ q.set .failed
  · obtain ⟨-, honly⟩ := h.fits hid
    rw [if_pos (AList.lookup_isSome.2 hid)] at hrun
    rw [Call.exec, after_eq hrun]
    refine removed_one honly ⟨rfl, hid⟩ rfl fun key m => ?_
    rw [setJob_set, mem_zrem]
    simp
  · rw [if_neg (fun hsome => hid (AList.lookup_isSome.1 hsome))] at hrun
    rw [Call.exec, after_eq hrun]
    exact .same rfl rfl

theorem purgeFailed_effect {before : Option ℤ} {batch : ℕ} :
    Effect q (.purgeFailed before batch) ((Call.purgeFailed before batch).exec q) := by
  rw [Call.exec, after_eq (run_purgeFailedScript q before batch)]
  refine .removed _ (fun id hid => hid) (q.job_dropFailed _) fun key m => ?_
  rw [mem_dropFailed]
  refine and_congr_right fun hm => not_congr ⟨?_, fun hid => ?_⟩
  · rintro ⟨rfl, hid⟩
    exact hid
  · -- the job is in `failed`, so `m` is its id there
    have hfailed : idOf key m ∈ q.set .failed := mem_of_mem_purgeable hid
    obtain ⟨-, honly⟩ := h.fits hfailed
    obtain ⟨rfl, -⟩ : SetKey.failed = key ∧ idOf key m = m := by
      simpa using (honly key m).1 ⟨hm, rfl⟩
    exact ⟨rfl, hid⟩

variable {cursor : Option (ℤ × String)}

/-- A page removes nothing: every member of `failed` has its job. -/
theorem exec_failedScan {want look : ℕ} : (Call.failedScan want look cursor).exec q = q := by
  have hrows : ∀ row ∈ ((newestFirst (q.set .failed)).drop
      (pageStart (q.set .failed) cursor)).take look, row.2 ∈ q.set .failed := by
    intro row hrow
    have hmem := mem_of_mem_drop (mem_of_mem_take hrow)
    obtain ⟨a, ha, rfl⟩ := mem_map.1 (mem_reverse.1 hmem)
    exact AList.lookup_isSome.1 (by simp [SortedSet.mem_sorted.1 ha])
  obtain ⟨page, hpage⟩ := run_scanRows h want _ hrows
    { done := decide ((((newestFirst (q.set .failed)).drop
        (pageStart (q.set .failed) cursor)).take look).length ≠ look), cursor := cursor, rows := [] }
  have hrun : (failedScanScript want look cursor).run q = .ok page q := by
    simpa [failedScanScript] using hpage
  rw [Call.exec, after_eq hrun]

theorem failedScan_effect {want look : ℕ} :
    Effect q (.failedScan want look cursor) ((Call.failedScan want look cursor).exec q) := by
  rw [exec_failedScan h]
  exact .same rfl rfl

/-- **What a script does**, as long as its sequence number has sixteen digits. -/
theorem Call.effect (hsent : c.Sent) (hseq : (c.exec q).seq < seqLimit) :
    Effect q c (c.exec q) := by
  cases c with
  | push => exact push_effect h hseq
  | pushUnique => exact pushUnique_effect h hseq
  | reserve => exact reserve_effect h hsent
  | ack => exact ack_effect h hsent
  | release => exact release_effect h hsent hseq
  | extend => exact extend_effect h hsent
  | bury => exact bury_effect h hsent
  | retryFailed => exact retryFailed_effect h hseq
  | forgetFailed => exact forgetFailed_effect h
  | purgeFailed => exact purgeFailed_effect h
  | failedScan => exact failedScan_effect h
  | stats => exact .same rfl rfl

end CallEffects

/-! ## The counter only grows -/

/-- The sequence counter does not go back. -/
def Grows (q q' : RedisKeys) : Prop := q.seq ≤ q'.seq

instance : Std.Refl Grows := ⟨fun _ => Nat.le_refl _⟩

instance : IsTrans RedisKeys Grows := ⟨fun _ _ _ => Nat.le_trans⟩

section Growing

variable {id key m : String} {k : SetKey} {server score : ℤ}

theorem existsJob_grows : Leads Grows (existsJob id) := fun _ => Nat.le_refl _
theorem hget_grows {α : Type} {field : JobHash → α} : Leads Grows (hget id field) :=
  fun _ => Nat.le_refl _
theorem hset_grows {change : JobHash → JobHash} : Leads Grows (hset id change) :=
  fun _ => Nat.le_refl _
theorem delJob_grows : Leads Grows (delJob id) := fun _ => Nat.le_refl _
theorem incr_grows : Leads Grows Redis.incr := fun q => Nat.le_succ q.seq
theorem zadd_grows : Leads Grows (Redis.zadd k score m) := fun _ => Nat.le_refl _
theorem zrem_grows : Leads Grows (Redis.zrem k m) := fun _ => Nat.le_refl _
theorem zset_grows : Leads Grows (zset k) := fun _ => Nat.le_refl _
theorem getUnique_grows : Leads Grows (getUnique server key) := fun _ => Nat.le_refl _
theorem delUnique_grows : Leads Grows (Redis.delUnique key) := fun _ => Nat.le_refl _
theorem get_grows : Leads Grows (get : Script RedisKeys RedisKeys) := fun _ => Nat.le_refl _

theorem arg_grows {α : Type} {o : Option α} : Leads Grows (arg o : Script RedisKeys α) := by
  cases o with
  | none => exact .throw _
  | some a => exact .pure a

theorem setUnique_grows {value : String} : Leads Grows (setUnique server key value ttl) := by
  refine .bind get_grows fun q => .bind (.ite (.throw _) (.pure _)) fun unique => ?_
  exact fun _ => Nat.le_refl _

theorem newMember_grows : Leads Grows (newMember id) := .bind incr_grows fun _ => .pure _

theorem releaseUniqueLua_grows : Leads Grows (releaseUniqueLua server job id) := by
  refine .bind hget_grows fun o => ?_
  cases o with
  | none => exact .pure _
  | some key => exact .bind getUnique_grows fun o => .ite delUnique_grows (.pure _)

theorem pushScript_grows {env : String} {at_ : ℤ} : Leads Grows (pushScript env at_ id) := by
  refine .bind existsJob_grows fun b => .ite (.pure _) ?_
  refine .bind newMember_grows fun m => .bind hset_grows fun _ => ?_
  exact .bind zadd_grows fun _ => .pure _

theorem pushUniqueScript_grows {env : String} {at_ : ℤ} {untilDone : Bool} :
    Leads Grows (pushUniqueScript server env at_ id key ttl untilDone) := by
  refine .bind getUnique_grows fun o => ?_
  cases o with
  | some holder => exact .pure _
  | none =>
    refine .bind existsJob_grows fun b => .ite (.pure _) ?_
    refine .bind setUnique_grows fun _ => .bind newMember_grows fun m => .bind hset_grows fun _ => ?_
    have hend : Leads Grows (do Redis.zadd .pending at_ m; return PushReply.pushed) :=
      .bind zadd_grows fun _ => .pure _
    exact .ite (.bind hset_grows fun _ => hend) hend

variable {deadline : ℤ}

theorem reserveLoop_grows {fuel : ℕ} : Leads Grows (reserveLoop now deadline receipt fuel) := by
  induction fuel with
  | zero => exact .pure _
  | succ fuel ih =>
    refine .bind get_grows fun q => ?_
    split
    · exact .pure _
    · refine .bind zrem_grows fun _ => .bind existsJob_grows fun b => .ite ?_ ih
      refine .bind ?_ fun _ => .pure _
      refine .bind hget_grows fun _ => .bind hset_grows fun _ => .bind hset_grows fun _ => ?_
      exact .bind zadd_grows fun _ => .bind hget_grows fun _ => .pure _

theorem reserveScript_grows : Leads Grows (reserveScript now deadline receipt) :=
  .bind get_grows fun _ => reserveLoop_grows

theorem ackScript_grows : Leads Grows (ackScript server id receipt) := by
  refine .bind hget_grows fun _ => .ite (.pure _) (.bind hget_grows fun _ => .bind arg_grows ?_)
  refine fun m => .bind releaseUniqueLua_grows fun _ => .bind zrem_grows fun _ => ?_
  exact .bind zrem_grows fun _ => .bind delJob_grows fun _ => .pure _

theorem releaseScript_grows {at_ : ℤ} {uncount : Bool} :
    Leads Grows (releaseScript job receipt at_ id uncount) := by
  refine .bind hget_grows fun _ => .ite (.pure _) (.bind hget_grows fun _ => ?_)
  have hend : Leads Grows (do
      Redis.zrem .reserved (← arg (← hget job JobHash.member))
      let m ← newMember id
      hset job fun h => { h with receipt := some "", member := some m }
      Redis.zadd .pending at_ m
      return 1) :=
    .bind hget_grows fun _ => .bind arg_grows fun _ => .bind zrem_grows fun _ =>
      .bind newMember_grows fun _ => .bind hset_grows fun _ => .bind zadd_grows fun _ => .pure _
  exact .ite (.bind hset_grows fun _ => hend) hend

theorem extendScript_grows : Leads Grows (extendScript id receipt deadline) :=
  .bind hget_grows fun _ => .ite (.pure _) <| .bind hget_grows fun _ => .bind arg_grows fun _ =>
    .bind zadd_grows fun _ => .pure _

theorem buryScript_grows {failedAt : ℤ} {failure : String} :
    Leads Grows (buryScript server job receipt id failedAt failure) := by
  refine .bind hget_grows fun _ => .ite (.pure _) (.bind releaseUniqueLua_grows fun _ => ?_)
  refine .bind hget_grows fun _ => .bind arg_grows fun _ => .bind zrem_grows fun _ => ?_
  exact .bind hset_grows fun _ => .bind zadd_grows fun _ => .pure _

theorem requeue_grows : Leads Grows (requeue id now) :=
  .bind zrem_grows fun _ => .bind newMember_grows fun _ => .bind hset_grows fun _ =>
    .bind hset_grows fun _ => .bind zadd_grows fun _ => .pure _

theorem retryFailedScript_grows : Leads Grows (retryFailedScript server id now) := by
  refine .bind zset_grows fun _ => .ite (.pure _) (.bind hget_grows fun _ => .ite ?_ ?_)
  · exact .bind zrem_grows fun _ => .pure _
  · refine .bind hget_grows fun o => ?_
    cases o with
    | none => exact requeue_grows
    | some key =>
      refine .bind getUnique_grows fun o => ?_
      split
      · exact .pure _
      · exact .bind hget_grows fun _ => .bind arg_grows fun _ => .bind setUnique_grows fun _ =>
          requeue_grows

theorem forgetFailedScript_grows : Leads Grows (forgetFailedScript id) :=
  .bind zset_grows fun _ => .ite (.pure _) <| .bind zrem_grows fun _ =>
    .bind delJob_grows fun _ => .pure _

theorem scanRows_grows {want : ℕ} {rows : List (ℤ × String)} {page : FailedPage} :
    Leads Grows (scanRows want rows page) := by
  induction rows generalizing page with
  | nil => exact .pure _
  | cons row rows ih =>
    obtain ⟨score, id⟩ := row
    refine .bind hget_grows fun env => .bind hget_grows fun failure => ?_
    split
    · exact .bind hget_grows fun _ => .ite (.pure _) ih
    · exact .bind zrem_grows fun _ => ih

theorem Call.grows (c : Call) (q : RedisKeys) : q.seq ≤ (c.exec q).seq := by
  cases c with
  | push => exact pushScript_grows q
  | pushUnique => exact pushUniqueScript_grows q
  | reserve => exact reserveScript_grows q
  | ack => exact ackScript_grows q
  | release => exact releaseScript_grows q
  | extend => exact extendScript_grows q
  | bury => exact buryScript_grows q
  | retryFailed => exact retryFailedScript_grows q
  | forgetFailed => exact forgetFailedScript_grows q
  | purgeFailed before batch =>
    rw [Call.exec, after_eq (run_purgeFailedScript q before batch), seq_dropFailed]
  | failedScan want look cursor => exact Leads.bind zset_grows (fun _ => scanRows_grows) q
  | stats => exact Nat.le_refl _

end Growing

/-! ## Whole runs -/

theorem Step.grows (h : Step q c q') : q.seq ≤ q'.seq := by
  obtain ⟨-, rfl⟩ := h
  exact c.grows q

/-- One script keeps the invariant. -/
theorem Step.effect (h : Step q c q') (hq : q.Consistent) (hseq : q'.seq < seqLimit) :
    Effect q c q' := by
  obtain ⟨hsent, rfl⟩ := h
  exact Call.effect hq hsent hseq

theorem consistent_empty : RedisKeys.empty.Consistent := fun id =>
  .absent rfl fun key m => by simp [RedisKeys.empty]

/-- **Every run keeps the invariant** while its sequence numbers have sixteen digits. -/
theorem consistent_run (h : Run Step RedisKeys.empty calls q) (hseq : q.seq < seqLimit) :
    q.Consistent := by
  refine Run.preserves (I := fun q => q.seq < seqLimit → q.Consistent) ?_ h
    (fun _ => consistent_empty) hseq
  intro q c q' hstep hq hseq'
  have hq := hq (lt_of_le_of_lt hstep.grows hseq')
  exact (hstep.effect hq hseq').consistent hq

/-! ## The representation -/

/-- No hash, and no occurrence in any set. -/
def Missing (q : RedisKeys) (id : String) : Prop := q.job id = .absent ∧ q.occurrences id = []

/-- A hash with an envelope, and one occurrence in one set: under the hash's member in `pending`
and `reserved`, under the id in `failed`; with a receipt exactly in `reserved` and a failure
exactly in `failed`. -/
def Stored (q : RedisKeys) (id : String) : Prop :=
  (q.job id).env.isSome ∧ ∃ key m, q.occurrences id = [(key, m)] ∧
    (key ≠ .failed → (q.job id).member = some m) ∧ (key = .failed → m = id) ∧
    ((∃ r, (q.job id).receipt = some r ∧ r ≠ "") ↔ key = .reserved) ∧
    ((q.job id).failure.isSome ↔ key = .failed)

theorem Sound.missing_or_stored (h : q.Sound id) : Xor (q.Missing id) (q.Stored id) := by
  cases h with
  | absent hash nowhere =>
    refine .inl ⟨⟨hash, occurrences_eq nowhere⟩, fun hs => ?_⟩
    simpa [hash, JobHash.absent] using hs.1
  | @present key m fits only =>
    refine .inr ⟨⟨fits.env, key, m, occurrences_eq only, fits.member, fits.failed, ?_,
      fits.failure⟩, fun hm => ?_⟩
    · obtain ⟨r, hr, hkey⟩ := fits.receipt
      rw [← hkey]
      constructor
      · rintro ⟨r', hr', hne⟩
        obtain rfl : r = r' := by simpa [hr] using hr'
        exact hne
      · exact fun hne => ⟨r, hr, hne⟩
    · exact fits.exists hm.1

theorem Stored.of_env (h : q.Consistent) (henv : (q.job id).env.isSome) : q.Stored id := by
  rcases (h id).missing_or_stored with ⟨hm, -⟩ | ⟨hs, -⟩
  · simp [hm.1, JobHash.absent] at henv
  · exact hs

theorem Stored.exists (h : q.Stored id) : q.job id ≠ .absent := by
  intro habs
  simpa [habs, JobHash.absent] using h.1

/-- **The representation invariant.** In every run of the scripts that draws fewer than 10¹⁶ − 1
sequence numbers, every job id is missing or stored, never both; a script keeps every stored job
with its envelope, unless it acks it under its receipt or deletes it from `failed`; and the loop
of a reservation ends in its first iteration and drops nothing, and a job it hands out is then
leased, in one place. -/
theorem representation {q : RedisKeys} (h : Run Step .empty calls q) (hseq : q.seq < seqLimit) :
    (∀ id, Xor (q.Missing id) (q.Stored id)) ∧
    (∀ c q', Step q c q' → q'.seq < seqLimit → ∀ id, q.Stored id →
      q'.Stored id ∧ (q'.job id).env = (q.job id).env ∨ c.Removes q id) ∧
    ∀ now deadline receipt, receipt ≠ "" → ∃ answer q',
      (reserveScript now deadline receipt).run q = .ok answer q' ∧
      (∀ fuel, (reserveLoop now deadline receipt (fuel + 1)).run q = .ok answer q') ∧
      (∀ id, q'.Stored id ↔ q.Stored id) ∧
      ∀ lease, answer = some lease → (q'.job lease.id).receipt = some receipt ∧
        ∃ m, q'.occurrences lease.id = [(.reserved, m)] := by
  have hq := consistent_run h hseq
  have hkeeps : ∀ c q', Step q c q' → q'.seq < seqLimit → ∀ id, q.Stored id →
      q'.Stored id ∧ (q'.job id).env = (q.job id).env ∨ c.Removes q id := by
    intro c q' hstep hseq' id hid
    have heffect := hstep.effect hq hseq'
    rcases heffect.env hid.exists with henv | hremoves
    · refine .inl ⟨.of_env (heffect.consistent hq) ?_, henv⟩
      rw [henv]
      exact hid.1
    · exact .inr hremoves
  refine ⟨fun id => (hq id).missing_or_stored, hkeeps, fun now deadline receipt hr => ?_⟩
  have hrun := run_reserveScript hq now deadline receipt
  cases hp : pick (onAbs toDouble now) q with
  | none =>
    rw [hp] at hrun
    refine ⟨none, q, hrun, fun fuel => ?_, fun _ => Iff.rfl, by simp⟩
    rw [run_reserveLoop, hp]
  | some x =>
    obtain ⟨source, since, m⟩ := x
    obtain ⟨hsource, hm⟩ := mem_of_pick hp
    have hid : idOf source m = memberID m := idOf_eq_memberID hsource
    have hjob : q.job (memberID m) ≠ .absent := hid ▸ hq.exists hm
    rw [hp] at hrun
    have hstep : Step q (.reserve now deadline receipt) (q.leasedOut deadline receipt source m) :=
      ⟨hr, (after_eq hrun).symm⟩
    have hq' := (hstep.effect hq hseq).consistent hq
    have hreceipt : ((q.leasedOut deadline receipt source m).job (memberID m)).receipt =
        some receipt := by simp [leasedOut]
    refine ⟨_, _, hrun, fun fuel => ?_, fun id => ⟨fun hs => ?_, fun hs => ?_⟩, ?_⟩
    · rw [run_reserveLoop, hp]
      simp only [hjob, if_false]
    · -- a job with an envelope had one before
      refine .of_env hq ?_
      by_cases hid' : id = memberID m
      · rw [hid', ← hid]
        exact (hq.fits hm).1.env
      · have hsame : (q.leasedOut deadline receipt source m).job id = q.job id := by
          simp [leasedOut, RedisKeys.setJob, hid']
        rw [← hsame]
        exact hs.1
    · rcases hkeeps _ _ hstep hseq id hs with hkeep | hremoves
      · exact hkeep.1
      · exact hremoves.elim
    · rintro lease ⟨⟩
      obtain ⟨m', -, honly⟩ := hq'.leased hreceipt hr
      exact ⟨hreceipt, m', occurrences_eq honly⟩

/-! ## The limit -/

/-- An empty queue that has drawn `n` sequence numbers. -/
def drawn (n : ℕ) : RedisKeys := { RedisKeys.empty with seq := n }

theorem erase_singleton (m : String) (x : ℤ) :
    AList.erase m (AList.singleton m x : SortedSet String) = ∅ :=
  AList.ext (kerase_cons_eq rfl)

/-- The hash of a job just pushed, but for its member. -/
def pushedHash (env : String) : JobHash :=
  { JobHash.absent with env := some env, attempts := some 0, receipt := some "" }

section Cycle

variable (env id : String) (n : ℕ) (deadline : ℤ)

/-- The queue with a job pushed under the next number. -/
def pushedOne : RedisKeys := (drawn n).queued id (pushedHash env) 0

/-- The queue with the job leased. -/
def leasedOne : RedisKeys :=
  (pushedOne env id n).leasedOut deadline "r" .pending (member (n + 1) id)

theorem consistent_drawn : (drawn n).Consistent := fun _ =>
  .absent rfl fun key m => by simp [drawn, RedisKeys.empty]

theorem step_push : Step (drawn n) (.push env 0 id) (pushedOne env id n) :=
  ⟨trivial, (after_eq (run_pushScript (drawn n) id env 0)).symm⟩

/-- The only member is due. -/
theorem pick_pushedOne :
    pick (onAbs toDouble 0) (pushedOne env id n) = some (.pending, 0, member (n + 1) id) := by
  have hpending : ((pushedOne env id n).set .pending).first 0 = some (toLex (0, member (n + 1) id)) :=
    rfl
  have hreserved : ((pushedOne env id n).set .reserved).first 0 = none := rfl
  rw [show onAbs toDouble 0 = 0 from rfl, pick, hpending, hreserved]
  rfl

variable {n} (hn : n + 1 < seqLimit)

include hn

theorem run_reserve_pushed : (reserveScript 0 deadline "r").run (pushedOne env id n) =
    .ok (some ⟨id, some env, 1, 0, false⟩) (leasedOne env id n deadline) := by
  have hq := ((step_push env id n).effect (consistent_drawn n) hn).consistent (consistent_drawn n)
  have hreply : (pushedOne env id n).leaseReply .pending 0 (member (n + 1) id) =
      ⟨id, some env, 1, 0, false⟩ := by
    simp [leaseReply, memberID_member hn, pushedOne, queued, pushedHash]
  rw [run_reserveScript hq, pick_pushedOne, ← hreply]
  rfl

/-- The queue is empty again. -/
theorem run_ack_leased :
    (ackScript 0 id "r").run (leasedOne env id n deadline) = .ok 1 (drawn (n + 1)) := by
  have hid := memberID_member hn id
  rw [run_ackScript _ _ _ (r := "r") (m := member (n + 1) id) (by simp [leasedOne, leasedOut, hid])
    (by simp [leasedOne, leasedOut, hid, pushedOne, queued, drawn])]
  have hunique : (leasedOne env id n deadline).releaseUnique 0 id (memberID (member (n + 1) id)) =
      leasedOne env id n deadline := by
    simp [releaseUnique, leasedOne, leasedOut, hid, pushedOne, queued, pushedHash, JobHash.absent]
  rw [hunique]
  refine congrArg (EStateM.Result.ok 1) ?_
  ext1
  · funext key
    cases key <;>
      simp [leasedOne, leasedOut, pushedOne, queued, zadd, zrem, setJob, RedisKeys.incr, drawn,
        RedisKeys.empty, erase_singleton]
    rfl
  · rfl
  · funext id'
    by_cases hne : id' = id
    · simp [hne, drawn, RedisKeys.empty]
    · simp [leasedOne, leasedOut, pushedOne, queued, setJob, zadd, zrem, hid, drawn, RedisKeys.empty,
        RedisKeys.incr]
  · rfl

/-- A push, a reservation and an ack draw one number and leave the queue empty. -/
theorem run_cycle :
    Run Step (drawn n) [.push env 0 id, .reserve 0 deadline "r", .ack 0 id "r"] (drawn (n + 1)) :=
  .cons (step_push env id n)
    (.cons ⟨by simp [Call.Sent], (after_eq (run_reserve_pushed env id deadline hn)).symm⟩
      (.single ⟨by simp [Call.Sent], (after_eq (run_ack_leased env id deadline hn)).symm⟩))

end Cycle

/-- The data after calls on an empty queue. -/
def executed (calls : List Call) : RedisKeys := calls.foldl Call.exec .empty

theorem run_executed (h : ∀ c ∈ calls, c.Sent) :
    Run Step .empty calls (executed calls) := by
  unfold executed
  generalize RedisKeys.empty = q
  induction calls generalizing q with
  | nil => exact .nil q
  | cons c calls ih =>
    obtain ⟨hc, hcalls⟩ := forall_mem_cons.1 h
    exact .cons ⟨hc, rfl⟩ (ih hcalls _)

/-- Two jobs are pushed, and the first is leased and buried. -/
theorem representation_moved :
    let calls : List Call :=
      [.push "e" 0 "a", .push "e" 0 "b", .reserve 0 5 "r", .bury 1 "a" "r" 1 "f"]
    let q := executed calls
    Run Step .empty calls q ∧ q.occurrences "a" = [(.failed, "a")] ∧
      q.occurrences "b" = [(.pending, member 2 "b")] ∧ ∀ id, Xor (q.Missing id) (q.Stored id) := by
  intro calls q
  have hrun : Run Step .empty calls q := run_executed (by simp [calls, Call.Sent])
  exact ⟨hrun, by decide +kernel, by decide +kernel, (representation hrun (by decide +kernel)).1⟩

/-- Every number below the limit can be drawn. -/
theorem run_drawn {n : ℕ} (hn : n < seqLimit) : ∃ calls, Run Step .empty calls (drawn n) := by
  induction n with
  | zero => exact ⟨[], .nil _⟩
  | succ n ih =>
    obtain ⟨calls, hrun⟩ := ih (by omega)
    exact ⟨_, hrun.append (run_cycle "e" "a" 0 hn)⟩

section Lost

variable {n : ℕ} (hid : memberID (member (n + 1) "a") ≠ "a")

include hid

/-- A member that does not end in the id after seventeen characters is nobody's. -/
theorem occurrences_lost : (pushedOne "e" "a" n).occurrences "a" = [] := by
  refine occurrences_eq (p := none) fun key m => ?_
  simp only [reduceCtorEq, iff_false, not_and]
  intro hm
  rcases (mem_zadd ..).1 hm with ⟨rfl, rfl⟩ | hm
  · exact hid
  · exact absurd hm (AList.notMem_empty _)

/-- The reservation takes the member, finds no job and gives up. -/
theorem run_reserve_lost :
    (reserveScript 0 0 "r").run (pushedOne "e" "a" n) =
      .ok none ((pushedOne "e" "a" n).zrem .pending (member (n + 1) "a")) := by
  have habs : (pushedOne "e" "a" n).job (memberID (member (n + 1) "a")) = .absent := by
    simp [pushedOne, queued, setJob, hid, drawn, RedisKeys.empty]
  have hloop := run_reserveLoop (pushedOne "e" "a" n) 0 0 "r" 0
  rw [pick_pushedOne] at hloop
  simp only [habs, if_true] at hloop
  have hfuel : ((pushedOne "e" "a" n).set .pending).keys.length +
      ((pushedOne "e" "a" n).set .reserved).keys.length = 0 + 1 := rfl
  simp only [reserveScript, EStateM.run_bind, EStateM.run_get]
  rw [hfuel, hloop, reserveLoop, EStateM.run_pure]

end Lost

/-- **The limit.** The push that draws 10¹⁶ − 1 writes its job under a member of seventeen
digits: the job's hash is there, but the id occurs in no set, and the next reservation drops the
member without handing the job out. -/
theorem representation_limit :
    ∃ calls q, Run Step .empty calls q ∧ ¬Xor (q.Missing "a") (q.Stored "a") ∧
      ∃ q', Step q (.reserve 0 0 "r") q' ∧
        (reserveScript 0 0 "r").run q = .ok none q' ∧ (q'.job "a").env = some "e" ∧
        ∀ key, q'.set key = ∅ := by
  obtain ⟨calls, hrun⟩ := run_drawn (show 10 ^ 16 - 2 < seqLimit by decide)
  have hid : memberID (member (10 ^ 16 - 2 + 1) "a") ≠ "a" := by decide
  generalize 10 ^ 16 - 2 = n at hrun hid
  have henv : ((pushedOne "e" "a" n).job "a").env = some "e" := by simp [pushedOne, queued, pushedHash]
  have hres := run_reserve_lost hid
  refine ⟨_, pushedOne "e" "a" n, hrun.append (.single (step_push "e" "a" n)), ?_, _,
    ⟨by simp [Call.Sent], (after_eq hres).symm⟩, hres, henv, ?_⟩
  · rintro (⟨⟨habs, -⟩, -⟩ | ⟨⟨-, key, m, hocc, -⟩, -⟩)
    · simp [habs, JobHash.absent] at henv
    · simp [occurrences_lost hid] at hocc
  · rintro (_ | _ | _)
    · exact erase_singleton _ _
    · rfl
    · rfl

end RedisKeys

end Gombit.Jobs
