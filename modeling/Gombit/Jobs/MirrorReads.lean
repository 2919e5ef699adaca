import Gombit.Jobs.MirrorSettling

/-!
# The drivers count and list alike

The operations that read a whole queue, from related states. Memory ranges over its map in no
order; Redis reads its sorted sets by rank and by score, in pages and in batches.

* `Mirrors.rows_perm`: a set has one row for each job whose place it is.
* `stats_simulates`: the counts, and the oldest ready time.
* `failed_simulates`: the pages put together are the list memory sorts.
* `purgeFailed_simulates`: the batches delete the jobs memory selects.
-/

namespace Gombit.Jobs

open Redis RedisKeys List MemoryQueue
open RedisQueue (addPage decodePage failedPageSize wanted listFailed Listing)

namespace MemoryQueue

/-- The jobs of a queue, in the order a loop over the map visits them. -/
def jobsOf (q : MemoryQueue) (queue : String) : List MemoryJob :=
  q.jobList.filter fun j => decide (j.queue = queue)

theorem mem_jobsOf {q : MemoryQueue} {queue : String} {j : MemoryJob} :
    j ∈ q.jobsOf queue ↔ q.jobs.lookup ⟨queue, j.env.id⟩ = some j := by
  rw [jobsOf, mem_filter, mem_jobList, decide_eq_true_eq]
  constructor
  · rintro ⟨hj, rfl⟩
    exact hj
  · intro hj
    have hkey := q.keyed _ _ hj
    exact ⟨by rw [hkey]; exact hj, congrArg MemoryKey.queue hkey⟩

theorem nodup_jobList (q : MemoryQueue) : q.jobList.Nodup := by
  refine List.Nodup.map_on ?_ (List.Nodup.of_map Sigma.fst q.jobs.nodupKeys)
  rintro ⟨k, j⟩ hj ⟨k', j'⟩ hj' rfl
  have hk := q.keyed k j (Table.mem_entries_iff.1 hj)
  have hk' := q.keyed k' j (Table.mem_entries_iff.1 hj')
  rw [← hk, ← hk']

theorem nodup_jobsOf (q : MemoryQueue) (queue : String) : (q.jobsOf queue).Nodup :=
  q.nodup_jobList.filter _

end MemoryQueue

section Reads

variable {c : Codec} {now : ℤ} {drawn : String → ℕ} {mem : MemoryQueue} {red : RedisQueue}
  {queue : String} {N : ℕ} {k : RedisKeys} {num : String → ℕ}

/-! ## Rows -/

/-- The row of a job in its set. -/
def MemoryJob.row (num : String → ℕ) (j : MemoryJob) : ℤ ×ₗ String :=
  toLex (score j.placedAt, j.memberAs (num j.env.id))

/-- The jobs of a queue whose place is the set `key`. -/
def jobsIn (mem : MemoryQueue) (queue : String) (key : SetKey) : List MemoryJob :=
  (mem.jobsOf queue).filter fun j => decide (j.place = key)

variable {j : MemoryJob} {l : List MemoryJob}

theorem mem_jobsIn {key : SetKey} :
    j ∈ jobsIn mem queue key ↔ mem.jobs.lookup ⟨queue, j.env.id⟩ = some j ∧ j.place = key := by
  rw [jobsIn, mem_filter, mem_jobsOf, decide_eq_true_eq]

/-- **A set has one row for each job whose place it is.** -/
theorem Mirrors.rows_perm (hm : Mirrors c queue N mem k num) (key : SetKey) :
    ((jobsIn mem queue key).map (MemoryJob.row num)).Perm (k.set key).sorted := by
  have hnodup : ((jobsIn mem queue key).map (MemoryJob.row num)).Nodup := by
    refine List.Nodup.map_on ?_ ((mem.nodup_jobsOf queue).filter _)
    intro i hi j hj hrow
    obtain ⟨hi, hplace⟩ := mem_jobsIn.1 hi
    obtain ⟨hj, hplace'⟩ := mem_jobsIn.1 hj
    -- the member of a row determines the id, and the id the job
    have hmember : i.memberAs (num i.env.id) = j.memberAs (num j.env.id) :=
      congrArg (fun a => (ofLex a).2) hrow
    have hids : i.env.id = j.env.id := by
      rw [← MemoryJob.idOf_memberAs (j := i) (hm.num_le hi), hmember, hplace, ← hplace',
        MemoryJob.idOf_memberAs (hm.num_le hj)]
    rw [hids, hj] at hi
    exact (Option.some.inj hi).symm
  rw [perm_ext_iff_of_nodup hnodup (k.set key).sorted_nodup]
  intro a
  rw [mem_map, SortedSet.mem_sorted]
  constructor
  · rintro ⟨j, hmem, rfl⟩
    obtain ⟨hj, rfl⟩ := mem_jobsIn.1 hmem
    exact (hm.stored _ j hj).place
  · intro ha
    obtain ⟨j, hj, hkey, hmember, hscore⟩ := hm.member ha
    have hid := (Mirrors.key hj).2
    refine ⟨j, mem_jobsIn.2 ⟨by rw [hid]; exact hj, hkey.symm⟩, ?_⟩
    rw [MemoryJob.row, hid, ← hmember, ← hscore]
    rfl

/-- The rows of a set whose score `p` selects, counted over the jobs. -/
theorem Mirrors.countP_rows (hm : Mirrors c queue N mem k num) (key : SetKey) (p : ℤ → Bool) :
    ((k.set key).sorted.map ofLex).countP (fun row => p row.1) =
      (mem.jobsOf queue).countP fun j => decide (j.place = key) && p (score j.placedAt) := by
  rw [countP_map, ← (hm.rows_perm key).countP_eq, countP_map, jobsIn, countP_filter]
  exact countP_congr fun j _ => by simp [MemoryJob.row, Bool.and_comm]

theorem Mirrors.length_set (hm : Mirrors c queue N mem k num) (key : SetKey) :
    (k.set key).keys.length = (mem.jobsOf queue).countP fun j => decide (j.place = key) := by
  rw [← SortedSet.length_sorted, ← (hm.rows_perm key).length_eq, length_map, jobsIn,
    countP_eq_length_filter]

/-! ## Stats -/

/-- The earliest ready time of the jobs `l`, zero when none is ready. -/
structure Oldest (now : ℤ) (l : List MemoryJob) (t : ℤ) : Prop where
  none : t = 0 → ∀ j ∈ l, j.available now = false
  some : t ≠ 0 → ∃ j ∈ l, j.available now = true ∧ j.readyAt = t
  least : ∀ j ∈ l, j.available now = true → t ≤ j.readyAt

variable {t : ℤ}

theorem Oldest.skip (h : Oldest now l t) (hav : j.available now = false) :
    Oldest now (l ++ [j]) t where
  none ht i hi := by
    rcases mem_append.1 hi with hi | hi
    · exact h.none ht i hi
    · rw [mem_singleton.1 hi, hav]
  some ht := by
    obtain ⟨i, hi, hrest⟩ := h.some ht
    exact ⟨i, mem_append_left _ hi, hrest⟩
  least i hi hready := by
    rcases mem_append.1 hi with hi | hi
    · exact h.least i hi hready
    · rw [mem_singleton.1 hi, hav] at hready
      cases hready

theorem Oldest.take (h : Oldest now l t) (hav : j.available now = true) (hpos : 0 < j.readyAt) :
    Oldest now (l ++ [j]) (if t = 0 ∨ j.readyAt < t then j.readyAt else t) := by
  split
  · rename_i hearlier
    refine ⟨by omega, fun _ => ⟨j, by simp, hav, rfl⟩, fun i hi hready => ?_⟩
    rcases mem_append.1 hi with hi | hi
    · rcases hearlier with hzero | hlt
      · rw [h.none hzero i hi] at hready
        cases hready
      · exact hlt.le.trans (h.least i hi hready)
    · rw [mem_singleton.1 hi]
  · rename_i hlater
    refine ⟨by omega, fun ht => ?_, fun i hi hready => ?_⟩
    · obtain ⟨i, hi, hrest⟩ := h.some ht
      exact ⟨i, mem_append_left _ hi, hrest⟩
    · rcases mem_append.1 hi with hi | hi
      · exact h.least i hi hready
      · rw [mem_singleton.1 hi]
        omega

/-- The oldest ready time is that of the job a reservation takes. -/
theorem Oldest.eq_readyAt (h : Oldest now (mem.jobsOf queue) t)
    (hnext : mem.next queue now = .some j) : t = j.readyAt := by
  obtain ⟨hj, rfl, hav⟩ := next_eq_some hnext
  have hmem : j ∈ mem.jobsOf j.queue := mem_jobsOf.2 hj
  have hne : t ≠ 0 := fun hzero => by
    rw [h.none hzero j hmem] at hav
    cases hav
  obtain ⟨i, hi, havi, rfl⟩ := h.some hne
  -- `j` comes first in the order of reservations, so its time is the least
  have hle := firstBy_least MemoryJob.before_trans MemoryJob.before_asymm hnext
    (mem_of_mem_filter hi) (by
      simp only [havi, Bool.and_true, decide_eq_true_eq]
      exact congrArg MemoryKey.queue (mem.keyed _ _ (mem_jobsOf.1 hi)))
  rw [← Bool.not_eq_true, MemoryJob.before_iff] at hle
  have hge := h.least j hmem hav
  omega

/-- What the loop of `Stats` has counted after the jobs `l`. -/
structure Counted (now : ℤ) (l : List MemoryJob) (st : QueueStats) : Prop where
  ready : st.ready = l.countP fun j => j.available now
  scheduled : st.scheduled =
    l.countP fun j => decide (j.place = .pending) && decide (now < j.placedAt)
  reserved : st.reserved =
    l.countP fun j => decide (j.place = .reserved) && decide (now < j.placedAt)
  failed : st.failed = l.countP fun j => decide (j.place = .failed)
  oldest : Oldest now l st.oldestReady

/-- Which counter a job goes to. -/
theorem countJob_cases (now : ℤ) (st : QueueStats) (j : MemoryJob) :
    (j.available now = false ∧ j.place = .failed ∧
        MemoryQueue.countJob now st j = { st with failed := st.failed + 1 }) ∨
      (j.available now = false ∧ j.place = .reserved ∧ now < j.placedAt ∧
        MemoryQueue.countJob now st j = { st with reserved := st.reserved + 1 }) ∨
      (j.available now = false ∧ j.place = .pending ∧ now < j.placedAt ∧
        MemoryQueue.countJob now st j = { st with scheduled := st.scheduled + 1 }) ∨
      (j.available now = true ∧ j.place ≠ .failed ∧ j.placedAt ≤ now ∧
        MemoryQueue.countJob now st j = { st with
          ready := st.ready + 1
          oldestReady := if st.oldestReady = 0 ∨ j.readyAt < st.oldestReady then j.readyAt
            else st.oldestReady }) := by
  unfold countJob MemoryJob.available MemoryJob.place MemoryJob.placedAt
    MemoryJob.readyAt
  cases hf : j.failure with
  | some f => simp
  | none =>
    cases hr : j.reserved with
    | false => rcases lt_or_ge now j.availableAt with h | h <;> simp [h, not_lt.2, not_le.2]
    | true => rcases lt_or_ge now j.leaseDeadline with h | h <;> simp [h, not_lt.2, not_le.2]

theorem counted_stats (hpos : ∀ j ∈ l, j.available now = true → 0 < j.readyAt) :
    Counted now l (l.foldl (MemoryQueue.countJob now) ⟨0, 0, 0, 0, 0⟩) := by
  induction l using List.reverseRecOn with
  | nil => exact ⟨rfl, rfl, rfl, rfl, by simp, by simp, by simp⟩
  | append_singleton l j ih =>
    have ih := ih fun i hi => hpos i (by simp [hi])
    have hj := hpos j (by simp)
    rw [foldl_append, foldl_cons, foldl_nil]
    generalize l.foldl (countJob now) ⟨0, 0, 0, 0, 0⟩ = st at ih ⊢
    obtain ⟨hready, hscheduled, hreserved, hfailed, holdest⟩ := ih
    rcases countJob_cases now st j with ⟨hav, hplace, heq⟩ | ⟨hav, hplace, hlt, heq⟩ |
      ⟨hav, hplace, hlt, heq⟩ | ⟨hav, hplace, hle, heq⟩ <;> rw [heq]
    · exact ⟨by simp [hav, hready], by simp [hplace, hscheduled], by simp [hplace, hreserved],
        by simp [hplace, hfailed], holdest.skip hav⟩
    · exact ⟨by simp [hav, hready], by simp [hplace, hscheduled], by simp [hplace, hlt, hreserved],
        by simp [hplace, hfailed], holdest.skip hav⟩
    · exact ⟨by simp [hav, hready], by simp [hplace, hlt, hscheduled], by simp [hplace, hreserved],
        by simp [hplace, hfailed], holdest.skip hav⟩
    · exact ⟨by simp [hav, hready], by simp [not_lt.2 hle, hscheduled],
        by simp [not_lt.2 hle, hreserved], by simp [hplace, hfailed], holdest.take hav (hj hav)⟩

/-- The ready jobs are the pending and the leased ones whose time has come. -/
theorem countP_available (l : List MemoryJob) :
    (l.countP fun j => j.available now) =
      (l.countP fun j => decide (j.place = .pending) && decide (j.placedAt ≤ now)) +
        l.countP fun j => decide (j.place = .reserved) && decide (j.placedAt ≤ now) := by
  have heq : ∀ j : MemoryJob, j.available now =
      ((decide (j.place = .pending) && decide (j.placedAt ≤ now)) ||
        (decide (j.place = .reserved) && decide (j.placedAt ≤ now))) := by
    intro j
    unfold MemoryJob.available MemoryJob.place MemoryJob.placedAt MemoryJob.readyAt
    cases j.failure <;> cases j.reserved <;> simp
  rw [countP_eq_countP_filter_add l _ fun j => decide (j.place = .pending),
    countP_filter, countP_filter]
  congr 1 <;> refine countP_congr fun j _ => ?_ <;> rw [heq] <;> cases j.place <;> simp

/-- The oldest ready time is the score a reservation would take. -/
theorem oldestDue_eq (hpos : ∀ key ≠ SetKey.failed, ∀ m x, (k.set key).lookup m = some x → 0 ≤ x) :
    oldestDue now k = ((pick now k).map fun x => x.2.1).getD (-1) := by
  unfold oldestDue pick
  cases hp : (k.set .pending).first now with
  | none => cases hr : (k.set .reserved).first now <;> simp
  | some p =>
    have hp0 : ¬(ofLex p).1 < 0 := not_lt.2 (hpos .pending (by simp) _ _ (SortedSet.first_spec hp).1)
    cases hr : (k.set .reserved).first now with
    | none => simp
    | some r =>
      rcases lt_trichotomy (ofLex r).1 (ofLex p).1 with hlt | heq | hgt
      · simp [hlt]
      · by_cases hm : (ofLex r).2 < (ofLex p).2 <;> simp [heq, hm, hp0]
      · simp [not_lt.2 hgt.le, hgt.ne', hp0]

/-- The oldest ready time, on both sides. -/
theorem Mirrors.oldest (hm : Mirrors c queue N mem k num) (hnow : Whole now)
    (hearly : unixMilli now < 2 ^ 53) (ht : Oldest now (mem.jobsOf queue) t) :
    (if 0 ≤ oldestDue (onAbs toDouble (unixMilli now)) k then
      ofUnixMilli (oldestDue (onAbs toDouble (unixMilli now)) k) else 0) = t := by
  have hpos : ∀ key ≠ SetKey.failed, ∀ m x, (k.set key).lookup m = some x → 0 ≤ x := by
    intro key _ m x hx
    obtain ⟨j, hj, -, -, rfl⟩ := hm.member hx
    rw [score, onAbs, if_pos (hm.stored _ j hj).tame.placedAt.2]
    omega
  rw [oldestDue_eq hpos, hm.pick hnow hearly]
  cases hnext : mem.next queue now with
  | none =>
    have hno := next_eq_none.1 hnext
    have hzero : t = 0 := by
      by_contra hne
      obtain ⟨j, hj, hav, -⟩ := ht.some hne
      rw [hno _ j (mem_jobsOf.1 hj) rfl] at hav
      cases hav
    simp [hzero]
  | some j =>
    obtain ⟨hj, rfl, hav⟩ := next_eq_some hnext
    have hw := (hm.stored _ j hj).tame.readyAt
    have hfail := MemoryJob.failure_of_available hav
    have hdue := (hw.le_iff hnow).2 ((available_iff hfail).1 hav)
    have hscore : score j.placedAt = unixMilli j.readyAt := by
      rw [placedAt_eq hfail, hw.score_eq (by omega)]
    have heq := ht.eq_readyAt hnext
    rw [heq]
    simp [hscore, hw.2, hw.1]

theorem stats_simulates (h : Related c now drawn mem red) (hnow : Whole now)
    (hearly : unixMilli now < 10 ^ 14) (hname : validName queue = true)
    (hb : ∀ q, drawnAfter drawn (.stats queue) q ≤ 2 ^ 53) :
    Simulates c now drawn (.stats queue) mem red := by
  obtain ⟨num, hm⟩ := h.queues queue
  have hexact : onAbs toDouble (unixMilli now) = unixMilli now := hnow.score_eq (by omega)
  have hdigits : onAbs toFourteenDigits (unixMilli now) = unixMilli now :=
    onAbs_of_nonneg hnow.2 (toFourteenDigits_of_lt (by have := hnow.2; omega))
  have hdue : ∀ j ∈ mem.jobsOf queue, (score j.placedAt ≤ unixMilli now ↔ j.placedAt ≤ now) :=
    fun j hj => (hm.stored _ j (mem_jobsOf.1 hj)).tame.placedAt.score_le_iff hnow
      (by omega)
  have hcounted : Counted now (mem.jobsOf queue)
      ((mem.jobsOf queue).foldl (countJob now) ⟨0, 0, 0, 0, 0⟩) := by
    refine counted_stats fun j hj _ => ?_
    have hw := (hm.stored _ j (mem_jobsOf.1 hj)).tame.readyAt
    have := hw.1
    have := hw.2
    unfold ofUnixMilli epoch at *
    omega
  generalize hst : (mem.jobsOf queue).foldl (countJob now) ⟨0, 0, 0, 0, 0⟩ = st
    at hcounted
  have holdest := hm.oldest hnow (by omega) hcounted.oldest
  rw [hexact] at holdest
  refine simulates_of_eq (.stats st) h hb ?_ ?_
  · simp only [step, stats, hname, h.memOpen, Clock.const, Bool.not_true,
      Bool.false_eq_true, if_false, ← hst]
    rfl
  · have hrun : ∀ x, (statsScript x).run (red.keys queue) = .ok _ (red.keys queue) := fun _ => rfl
    have hcount : ∀ key, dueCount (unixMilli now) ((red.keys queue).set key) =
        (mem.jobsOf queue).countP fun j =>
          decide (j.place = key) && decide (j.placedAt ≤ now) := by
      intro key
      rw [dueCount, hm.countP_rows key fun x => decide (x ≤ unixMilli now)]
      exact countP_congr fun j hj => by simp [hdue j hj]
    have hready : dueCount (unixMilli now) ((red.keys queue).set .pending) +
        dueCount (unixMilli now) ((red.keys queue).set .reserved) = st.ready := by
      rw [hcount, hcount, ← countP_available, hcounted.ready]
    have hlater : (((red.keys queue).set .pending).sorted.map ofLex).countP
        (fun row => decide (unixMilli now < row.1)) = st.scheduled := by
      rw [hm.countP_rows .pending fun x => decide (unixMilli now < x), hcounted.scheduled]
      refine countP_congr fun j hj => ?_
      simp only [Bool.and_eq_true, decide_eq_true_eq]
      rw [← not_le, hdue j hj, not_le]
    have hleft : ((((red.keys queue).set .reserved).keys.length : ℤ) -
        dueCount (unixMilli now) ((red.keys queue).set .reserved)).toNat = st.reserved := by
      have hsplit := countP_eq_countP_filter_add (mem.jobsOf queue)
        (fun j => decide (j.place = .reserved)) fun j => decide (j.placedAt ≤ now)
      rw [countP_filter, countP_filter] at hsplit
      have hrest : ((mem.jobsOf queue).countP fun j =>
          decide (j.place = .reserved) && !decide (j.placedAt ≤ now)) = st.reserved := by
        rw [hcounted.reserved]
        exact countP_congr fun j _ => by simp
      rw [hm.length_set, hcount]
      omega
    simp only [RedisQueue.step, RedisQueue.stats, hname, h.redOpen, Bool.not_true,
      Bool.false_eq_true, if_false, RedisQueue.ask_eq (hrun _), RedisQueue.setKeys_keys_eq, hexact,
      hdigits, hready, hlater, hleft, hm.length_set .failed, ← hcounted.failed, holdest]

/-! ## The failed list -/

/-- **A page.** When every member has its job, a page holds the next `want` rows. -/
theorem run_scanRows_eq (k : RedisKeys) (want : ℕ) (rows : List (ℤ × String))
    (hrows : ∀ row ∈ rows, (k.job row.2).env.isSome ∧ (k.job row.2).failure.isSome)
    (page : FailedPage) (hwant : page.rows.length < want) :
    (scanRows want rows page).run k = .ok
      { done := page.done && decide (rows.length ≤ want - page.rows.length)
        cursor := (rows.take (want - page.rows.length)).getLast?.or page.cursor
        rows := page.rows ++ (rows.take (want - page.rows.length)).map k.failedRow } k := by
  induction rows generalizing page with
  | nil => simp [scanRows]
  | cons row rows ih =>
    obtain ⟨henv, hfailure⟩ := hrows row (by simp)
    obtain ⟨w, hw⟩ : ∃ w, want - page.rows.length = w + 1 := ⟨want - page.rows.length - 1, by omega⟩
    rw [run_scanRows_cons k henv hfailure, hw, take_succ_cons]
    split
    · -- the page is full
      rename_i hfull
      have hzero : w = 0 := by simp only [length_append, length_singleton] at hfull; omega
      subst hzero
      cases rows <;> simp
    · rename_i hmore
      simp only [length_append, length_singleton] at hmore
      rw [ih (fun row hrow => hrows row (mem_cons_of_mem _ hrow)) _ (by simp; omega)]
      have hw' : want - (page.rows ++ [k.failedRow row]).length = w := by simp; omega
      simp only [hw', length_cons, Nat.add_le_add_iff_right, map_cons, append_assoc,
        singleton_append, List.getLast?_cons]
      cases (rows.take w).getLast? <;> rfl

/-- A page of jobs not seen before is appended. -/
theorem addPage_eq {out page : List FailedJob}
    (h : ((out ++ page).map fun job => job.envelope.id).Nodup) :
    addPage out page = out ++ page := by
  induction page generalizing out with
  | nil => simp [addPage]
  | cons job page ih =>
    have hnew : (out.any fun seen => decide (seen.envelope.id = job.envelope.id)) = false := by
      rw [any_eq_false]
      intro seen hseen
      rw [map_append, map_cons, nodup_append] at h
      simpa using h.2.2 _ (mem_map_of_mem hseen) job.envelope.id (by simp)
    have hrest : addPage (out ++ [job]) page = out ++ [job] ++ page :=
      ih (by simpa using h)
    unfold addPage at hrest ⊢
    rw [foldl_cons, hnew, if_neg (by simp), hrest]
    simp

theorem mapM_eq_ok {α β ε : Type} {f : α → Except ε β} {g : α → β} {l : List α}
    (h : ∀ a ∈ l, f a = .ok (g a)) : l.mapM f = .ok (l.map g) := by
  induction l with
  | nil => rfl
  | cons a l ih =>
    rw [mapM_cons, h a (by simp), ih fun b hb => h b (by simp [hb])]
    rfl

theorem newestFirst_nodup (s : SortedSet String) : (newestFirst s).Nodup :=
  nodup_reverse.2 (s.sorted_nodup.map fun _ _ h => h)

theorem mem_newestFirst {s : SortedSet String} {row : ℤ × String} :
    row ∈ newestFirst s ↔ s.lookup row.2 = some row.1 := by
  rw [newestFirst, mem_reverse, mem_map]
  constructor
  · rintro ⟨a, ha, rfl⟩
    exact SortedSet.mem_sorted.1 ha
  · intro h
    exact ⟨toLex row, SortedSet.mem_sorted.2 h, rfl⟩

/-- The page after the first `p` rows starts at the row `p`. -/
theorem pageStart_eq {s : SortedSet String} {p : ℕ} (hp : p ≤ (newestFirst s).length) :
    pageStart s ((newestFirst s).take p).getLast? = p := by
  cases p with
  | zero => rfl
  | succ p =>
    have hlast : ((newestFirst s).take (p + 1)).getLast? = some ((newestFirst s).get ⟨p, hp⟩) := by
      rw [List.getLast?_take, if_neg p.succ_ne_zero, Nat.add_sub_cancel,
        List.getElem?_eq_getElem hp]
      rfl
    rw [hlast]
    have hmem := mem_newestFirst.1 (get_mem (newestFirst s) ⟨p, hp⟩)
    simp only [pageStart, hmem, if_true]
    exact congrArg (· + 1) ((newestFirst_nodup s).idxOf_getElem p hp)

/-- What `Failed` reads of each row of the failed set. -/
structure Decodes (c : Codec) (k : RedisKeys) (queue : String) (g : ℤ × String → FailedJob)
    (row : ℤ × String) : Prop where
  env : (k.job row.2).env.isSome
  failure : (k.job row.2).failure.isSome
  decode : c.decodeFailedJob queue row.2 ((k.job row.2).env.getD "")
    ((k.job row.2).attempts.getD 0) ((k.job row.2).failure.getD "") = .ok (g row)
  id : (g row).envelope.id = row.2

variable {g : ℤ × String → FailedJob} {before : ℤ}

/-- The jobs of some rows are distinct. -/
theorem Decodes.nodup {s : SortedSet String} (h : ∀ row ∈ newestFirst s, Decodes c k queue g row) :
    (((newestFirst s).map g).map fun job => job.envelope.id).Nodup := by
  rw [map_map]
  refine List.Nodup.map_on (fun a ha b hb hab => ?_) (newestFirst_nodup s)
  simp only [Function.comp_apply, (h a ha).id, (h b hb).id] at hab
  have hscore := (mem_newestFirst.1 ha).symm.trans (hab ▸ mem_newestFirst.1 hb)
  exact Prod.ext (Option.some.inj hscore) hab

/-- **The pages of `Failed`, put together**: the rows, decoded, up to the limit. -/
theorem listFailed_eq (limit : ℤ) {rows : List (ℤ × String)}
    (hnewest : newestFirst (k.set .failed) = rows) (hrows : ∀ row ∈ rows, Decodes c k queue g row)
    (fuel i p : ℕ) (hp : p ≤ rows.length) (hfuel : rows.length < p + fuel)
    (hlimit : 0 < limit → p < limit) :
    listFailed c queue failedPageSize limit (fun _ k => k) fuel i k ((rows.take p).map g)
        (rows.take p).getLast? =
      some ⟨if 0 < limit then (rows.map g).take limit.toNat else rows.map g, none, k⟩ := by
  induction fuel generalizing i p with
  | zero => omega
  | succ fuel ih =>
    obtain ⟨want, hwant⟩ :
        ∃ want, wanted failedPageSize limit ((rows.take p).map g) = want := ⟨_, rfl⟩
    have hbounds : 0 < want ∧ want ≤ failedPageSize ∧ (0 < limit → p + want ≤ limit) := by
      have hlen : ((rows.take p).map g).length = p := by simpa using hp
      unfold wanted at hwant
      rw [hlen] at hwant
      unfold failedPageSize at hwant ⊢
      split at hwant <;> omega
    obtain ⟨hpos, hsize, hle⟩ := hbounds
    have hstart := pageStart_eq (s := k.set .failed) (hnewest ▸ hp)
    rw [hnewest] at hstart
    -- one page
    have hpage : (failedScanScript want failedPageSize (rows.take p).getLast?).run
        k = .ok
          { done := decide (((rows.drop p).take failedPageSize).length ≠
              failedPageSize) &&
                decide (((rows.drop p).take failedPageSize).length ≤ want)
            cursor := (rows.take (p + want)).getLast?
            rows := ((rows.drop p).take want).map k.failedRow }
          k := by
      have hscan := run_scanRows_eq k want
        ((rows.drop p).take failedPageSize)
        (fun row hrow => by
          have hrow := hrows row (mem_of_mem_drop (mem_of_mem_take hrow))
          exact ⟨hrow.env, hrow.failure⟩)
        { done := decide (((rows.drop p).take failedPageSize).length ≠
            failedPageSize), cursor := (rows.take p).getLast?, rows := [] } hpos
      simp only [length_nil, Nat.sub_zero, take_take, Nat.min_eq_left hsize,
        nil_append, ← List.getLast?_append, ← take_add] at hscan
      simpa [failedScanScript, hnewest, hstart] using hscan
    have hdecoded : decodePage c queue
        (((rows.drop p).take want).map k.failedRow) =
          .ok (((rows.drop p).take want).map g) := by
      rw [decodePage, mapM_map]
      exact mapM_eq_ok fun row hrow =>
        (hrows row (mem_of_mem_drop (mem_of_mem_take hrow))).decode
    have hadd : addPage ((rows.take p).map g) (((rows.drop p).take want).map g) =
        (rows.take (p + want)).map g := by
      rw [addPage_eq, take_add, map_append]
      rw [← map_append, ← take_add]
      refine List.Nodup.sublist (((take_sublist _ _).map g).map _) ?_
      subst hnewest
      exact Decodes.nodup hrows
    rw [listFailed, hwant]
    simp only [hpage, hdecoded, hadd, Bool.and_eq_true, decide_eq_true_eq, length_take,
      length_drop, length_map]
    unfold failedPageSize at hsize ⊢
    by_cases hdone : min 500 (rows.length - p) ≠ 500 ∧ min 500 (rows.length - p) ≤ want
    · -- the set ran out: these are all the rows
      have hall : rows.length ≤ p + want := by omega
      rw [if_pos (.inl hdone), take_of_length_le hall]
      split
      · rw [take_of_length_le (by rw [length_map]; omega)]
      · rfl
    · have hmore : p + want ≤ rows.length := by omega
      rw [Nat.min_eq_left hmore]
      by_cases hfull : 0 < limit ∧ limit ≤ (p + want : ℕ)
      · have heq : limit.toNat = p + want := by have := hle hfull.1; omega
        rw [if_pos (.inr hfull), if_pos hfull.1, heq, map_take]
      · rw [if_neg (not_or.2 ⟨hdone, hfull⟩)]
        exact ih (i + 1) (p + want) hmore (by omega) (by omega)

/-- What memory lists of a queue, before it is sorted. -/
theorem failedList_eq (mem : MemoryQueue) (queue : String) :
    mem.failedList queue = ((jobsIn mem queue .failed).filterMap
      fun j => j.failure.map j.failedJob).insertionSort fun a b => !MemoryQueue.failedBefore b a := by
  unfold failedList jobsIn jobsOf
  congr 1
  rw [filterMap_filter, filterMap_filter]
  refine filterMap_congr fun j _ => ?_
  by_cases hq : j.queue = queue
  · cases hf : j.failure with
    | none => simp [hq]
    | some f => simp [hq, MemoryJob.place, hf]
  · simp [hq]

/-- What the failed list is sorted by, the greatest first. -/
def FailedJob.rank (job : FailedJob) : ℤ ×ₗ String := toLex (job.failure.at_, job.envelope.id)

theorem failedBefore_iff {a b : FailedJob} :
    MemoryQueue.failedBefore a b = true ↔ b.rank < a.rank := by
  unfold failedBefore FailedJob.rank
  rw [Prod.Lex.toLex_lt_toLex]
  split
  · rename_i hne
    rw [decide_eq_true_eq]
    exact ⟨.inl, fun h => h.resolve_right fun heq => hne heq.1.symm⟩
  · rename_i heq
    rw [decide_eq_true_eq, not_not.1 heq]
    exact ⟨fun h => .inr ⟨rfl, h⟩, fun h => h.elim (fun h => absurd h (lt_irrefl _)) And.right⟩

theorem not_failedBefore_iff {a b : FailedJob} :
    (!MemoryQueue.failedBefore b a) = true ↔ b.rank ≤ a.rank := by
  rw [Bool.not_eq_true', ← Bool.not_eq_true, failedBefore_iff, not_lt]

theorem failedList_pairwise (mem : MemoryQueue) (queue : String) :
    (mem.failedList queue).Pairwise fun a b => b.rank ≤ a.rank := by
  have : Std.Total fun a b : FailedJob => (!failedBefore b a) = true :=
    ⟨fun a b => by simp only [not_failedBefore_iff]; exact le_total _ _⟩
  have : IsTrans FailedJob fun a b => (!failedBefore b a) = true :=
    ⟨fun a b d => by simp only [not_failedBefore_iff]; exact fun h h' => h'.trans h⟩
  exact (pairwise_insertionSort _ _).imp not_failedBefore_iff.1

/-- **The failed set, most recent first, is the list memory sorts.** -/
theorem Mirrors.newestFirst_eq (hm : Mirrors c queue N mem k num) :
    ∃ g : ℤ × String → FailedJob, (∀ row ∈ newestFirst (k.set .failed), Decodes c k queue g row) ∧
      (newestFirst (k.set .failed)).map g = mem.failedList queue := by
  let g : ℤ × String → FailedJob := fun row =>
    ((mem.jobs.lookup ⟨queue, row.2⟩).bind fun j => j.failure.map j.failedJob).getD
      ⟨"", .bare "", none, 0, ⟨"", .none, "", 0⟩⟩
  have hg : ∀ {j f}, mem.jobs.lookup ⟨queue, j.env.id⟩ = some j → j.failure = some f →
      ∀ x, g (x, j.env.id) = j.failedJob f := by
    intro j f hj hf x
    simp [g, hj, hf]
  have hfailed : ∀ j ∈ jobsIn mem queue .failed, ∃ f, j.failure = some f := by
    intro j hj
    rw [← Option.isSome_iff_exists]
    by_contra hno
    have hplace := (mem_jobsIn.1 hj).2
    cases hr : j.reserved <;> simp [MemoryJob.place, hno, hr] at hplace
  have hrow : ∀ row ∈ newestFirst (k.set .failed), ∃ j f,
      mem.jobs.lookup ⟨queue, j.env.id⟩ = some j ∧ j.failure = some f ∧
        row = (score f.at_, j.env.id) := by
    intro row hrow
    obtain ⟨j, hj, hplace, -, hscore⟩ := hm.member (mem_newestFirst.1 hrow)
    have hid := (Mirrors.key hj).2
    have hj' : mem.jobs.lookup ⟨queue, j.env.id⟩ = some j := by rw [hid]; exact hj
    obtain ⟨f, hf⟩ := hfailed j (mem_jobsIn.2 ⟨hj', hplace.symm⟩)
    refine ⟨j, f, hj', hf, Prod.ext ?_ hid.symm⟩
    rw [hscore, (MemoryJob.failed_place hf 0).2.2]
  refine ⟨g, fun row hmem => ?_, ?_⟩
  · obtain ⟨j, f, hj, hf, rfl⟩ := hrow row hmem
    have hmj := hm.stored _ j hj
    have hq := (Mirrors.key hj).1
    obtain ⟨s, hs, -⟩ := hmj.tame.env
    obtain ⟨data, hdata, -⟩ := (hmj.tame.failure f hf).1
    refine ⟨?_, ?_, ?_, ?_⟩
    · simp [hmj.hash, MemoryJob.hash, hs]
    · simp [hmj.hash, MemoryJob.hash, hf, hdata]
    · rw [hg hj hf, hmj.hash, ← hq]
      exact decodeFailedJob_image hmj.tame hf
    · rw [hg hj hf]
      rfl
  · -- both are sorted, and they list the same jobs
    have hperm : ((newestFirst (k.set .failed)).map g).Perm (mem.failedList queue) := by
      have hjobs : (jobsIn mem queue .failed).filterMap (fun j => j.failure.map j.failedJob) =
          (jobsIn mem queue .failed).map fun j => g (ofLex (j.row num)) := by
        rw [← filterMap_eq_map]
        refine filterMap_congr fun j hj => ?_
        obtain ⟨f, hf⟩ := hfailed j hj
        simp only [hf, Option.map_some, Function.comp_apply, Option.some.injEq, MemoryJob.row,
          (MemoryJob.failed_place hf _).2.1, ofLex_toLex]
        exact (hg (mem_jobsIn.1 hj).1 hf _).symm
      rw [failedList_eq, hjobs]
      have hrows := ((hm.rows_perm .failed).map ofLex).map g
      rw [map_map, map_map] at hrows
      exact ((reverse_perm _).map g).trans
        (hrows.symm.trans (perm_insertionSort _ _).symm)
    refine hperm.eq_of_pairwise ?_ ?_ (failedList_pairwise mem queue)
    · intro a b ha hb hba hab
      obtain ⟨row, hmem, rfl⟩ := mem_map.1 ha
      obtain ⟨row', hmem', rfl⟩ := mem_map.1 (hperm.mem_iff.2 hb)
      obtain ⟨j, f, hj, hf, rfl⟩ := hrow row hmem
      obtain ⟨j', f', hj', hf', rfl⟩ := hrow row' hmem'
      rw [hg hj hf, hg hj' hf'] at hba hab ⊢
      have hids : j.env.id = j'.env.id := congrArg (fun r => (ofLex r).2) (le_antisymm hab hba)
      rw [hids, hj'] at hj
      cases hj
      rw [hf'] at hf
      cases hf
      rfl
    · rw [pairwise_map, newestFirst, pairwise_reverse, pairwise_map]
      refine (k.set .failed).sorted_pairwise.imp_of_mem fun {a b} ha hb hlt => ?_
      have hnewest : ∀ {x}, x ∈ (k.set .failed).sorted → ofLex x ∈ newestFirst (k.set .failed) :=
        fun hx => mem_newestFirst.2 (SortedSet.mem_sorted.1 hx)
      obtain ⟨i, f, hi, hf, ha⟩ := hrow _ (hnewest ha)
      obtain ⟨j, f', hj, hf', hb⟩ := hrow _ (hnewest hb)
      obtain ⟨hkeep, hw, -⟩ := (hm.stored _ i hi).tame.failure f hf
      obtain ⟨hkeep', hw', -⟩ := (hm.stored _ j hj).tame.failure f' hf'
      rw [ha, hb, hg hi hf, hg hj hf']
      have hlt' : toLex (score f.at_, i.env.id) < toLex (score f'.at_, j.env.id) := by
        rw [← ha, ← hb]
        exact hlt
      rw [hw.score_eq hkeep.early.le, hw'.score_eq hkeep'.early.le, Prod.Lex.toLex_lt_toLex] at hlt'
      simp only [hw.lt_iff hw', hw.inj hw'] at hlt'
      exact (Prod.Lex.toLex_lt_toLex.2 hlt').le

theorem failed_simulates (h : Related c now drawn mem red) {limit : ℤ}
    (hname : validName queue = true) (hb : ∀ q, drawnAfter drawn (.failed queue limit) q ≤ 2 ^ 53) :
    Simulates c now drawn (.failed queue limit) mem red := by
  obtain ⟨num, hm⟩ := h.queues queue
  obtain ⟨g, hdecodes, hlist⟩ := hm.newestFirst_eq
  have hlength : ((red.keys queue).set .failed).keys.length =
      (newestFirst ((red.keys queue).set .failed)).length := by
    simp [newestFirst, SortedSet.sorted, AList.keys, List.keys,
      (perm_insertionSort _ _).length_eq]
  have hloop := listFailed_eq limit rfl hdecodes
    (((red.keys queue).set .failed).keys.length + 1) 0 0 (Nat.zero_le _) (by omega)
    (fun hpos => by simpa using hpos)
  rw [hlist] at hloop
  refine simulates_of_eq (.failedJobs (if 0 < limit then (mem.failedList queue).take limit.toNat
    else mem.failedList queue)) h hb ?_ ?_
  · simp [step, failed, hname, h.memOpen]
  · simp only [take_zero, map_nil, getLast?_nil] at hloop
    simp [RedisQueue.step, RedisQueue.failed, hname, h.redOpen, hloop, Listing.answer]

/-! ## Purging -/

theorem lookup_dropFailed (k : RedisKeys) (ids : List String) (key : SetKey) (m : String) :
    ((k.dropFailed ids).set key).lookup m =
      if key = .failed ∧ m ∈ ids then none else (k.set key).lookup m := by
  induction ids generalizing k with
  | nil => simp [dropFailed]
  | cons id ids ih =>
    change ((((k.zrem .failed id).setJob id .absent).dropFailed ids).set key).lookup m = _
    rw [ih, setJob_set]
    by_cases hkey : key = .failed ∧ m = id
    · obtain ⟨rfl, rfl⟩ := hkey
      simp [RedisKeys.zrem]
    · rw [lookup_zrem_ne _ _ _ hkey]
      simp only [mem_cons, and_or_left, hkey, false_or]

theorem unique_dropFailed (k : RedisKeys) (ids : List String) :
    (k.dropFailed ids).unique = k.unique := by
  induction ids generalizing k with
  | nil => rfl
  | cons id ids ih => exact ih _

/-- The ids `PurgeFailed` deletes, in the order of the batches. -/
def purged (before : Option ℤ) (k : RedisKeys) : List String :=
  (((k.set .failed).sorted.map ofLex).filter fun row =>
    match before with
    | none => true
    | some before => decide (row.1 < onAbs toDouble before)).map Prod.snd

theorem purgeable_eq (before : Option ℤ) (batch : ℕ) (k : RedisKeys) :
    purgeable before batch (k.set .failed) = (purged before k).take batch :=
  map_take

theorem mem_purged {before : Option ℤ} {id : String} :
    id ∈ purged before k ↔ ∃ x, (k.set .failed).lookup id = some x ∧
      ∀ b, before = some b → x < onAbs toDouble b := by
  unfold purged
  simp only [mem_map, mem_filter]
  constructor
  · rintro ⟨row, ⟨⟨a, ha, rfl⟩, hp⟩, rfl⟩
    refine ⟨_, SortedSet.mem_sorted.1 ha, ?_⟩
    rintro b rfl
    simpa using hp
  · rintro ⟨x, hx, hp⟩
    refine ⟨(x, id), ⟨⟨toLex (x, id), SortedSet.mem_sorted_toLex.2 hx, rfl⟩, ?_⟩, rfl⟩
    cases before with
    | none => rfl
    | some b => simpa using hp b rfl

theorem nodup_purged (before : Option ℤ) (k : RedisKeys) : (purged before k).Nodup := by
  refine List.Nodup.map_on ?_ (((k.set .failed).sorted_nodup.map fun _ _ h => h).filter _)
  intro row hrow row' hrow' heq
  obtain ⟨a, ha, rfl⟩ := mem_map.1 (mem_filter.1 hrow).1
  obtain ⟨b, hb, rfl⟩ := mem_map.1 (mem_filter.1 hrow').1
  have hscore := (SortedSet.mem_sorted.1 ha).symm.trans (heq ▸ SortedSet.mem_sorted.1 hb)
  exact Prod.ext (Option.some.inj hscore) heq

/-- After a batch, the rest is left to delete. -/
theorem purged_dropFailed (before : Option ℤ) (batch : ℕ) (k : RedisKeys) :
    purged before (k.dropFailed ((purged before k).take batch)) =
      (purged before k).drop batch := by
  have hsorted : ∀ ids, ((k.dropFailed ids).set .failed).sorted =
      (k.set .failed).sorted.filter fun a => decide ((ofLex a).2 ∉ ids) := by
    intro ids
    refine (SortedSet.eq_sorted ((k.set .failed).sorted_pairwise.filter _) fun a => ?_).symm
    rw [mem_filter, SortedSet.mem_sorted, lookup_dropFailed]
    by_cases hid : (ofLex a).2 ∈ ids <;> simp [hid]
  have hfilter : ∀ ids, purged before (k.dropFailed ids) =
      (purged before k).filter fun id => decide (id ∉ ids) := by
    intro ids
    unfold purged
    simp only [hsorted, filter_map, filter_filter]
    congr 2
    exact filter_congr fun a _ => Bool.and_comm _ _
  rw [hfilter]
  conv_lhs => rw [← take_append_drop batch (purged before k)]
  have hdisjoint := disjoint_take_drop (nodup_purged before k) (le_refl batch)
  rw [filter_append, filter_eq_nil_iff.2, filter_eq_self.2, nil_append]
  · intro id hid
    rw [decide_eq_true_eq, take_append_drop]
    exact fun hmem => hdisjoint hmem hid
  · intro id hid
    rw [decide_eq_true_eq, take_append_drop, not_not]
    exact hid

/-- **The batches of `PurgeFailed`**: together they delete every job selected. -/
theorem purgeLoop_eq (queue : String) (before : Option ℤ) (fuel total : ℕ) (red : RedisQueue)
    (hfuel : (purged before (red.keys queue)).length < fuel) :
    RedisQueue.purgeLoop queue before fuel red total =
      (.purged (total + (purged before (red.keys queue)).length),
        red.setKeys queue ((red.keys queue).dropFailed (purged before (red.keys queue)))) := by
  induction fuel generalizing total red with
  | zero => omega
  | succ fuel ih =>
    have hrun := run_purgeFailedScript (red.keys queue) before RedisQueue.purgeBatch
    rw [purgeable_eq] at hrun
    rw [RedisQueue.purgeLoop, RedisQueue.run_eq hrun]
    simp only [length_take]
    split
    · -- the last batch
      have hall : (purged before (red.keys queue)).length ≤ RedisQueue.purgeBatch := by omega
      rw [take_of_length_le hall, Nat.min_eq_right hall]
    · have hkeys : (red.setKeys queue ((red.keys queue).dropFailed
          ((purged before (red.keys queue)).take RedisQueue.purgeBatch))).keys queue =
          (red.keys queue).dropFailed ((purged before (red.keys queue)).take
            RedisQueue.purgeBatch) := RedisQueue.setKeys_keys_self _ _ _
      have hdrop : ∀ ids ids', ((red.keys queue).dropFailed ids).dropFailed ids' =
          (red.keys queue).dropFailed (ids ++ ids') := fun ids ids' =>
        (foldl_append (f := fun (q : RedisKeys) id =>
          (q.zrem .failed id).setJob id .absent)).symm
      have hpos : 0 < RedisQueue.purgeBatch := by decide
      rw [ih]
      · have htotal : total + min RedisQueue.purgeBatch (purged before (red.keys queue)).length +
            ((purged before (red.keys queue)).length - RedisQueue.purgeBatch) =
            total + (purged before (red.keys queue)).length := by omega
        rw [hkeys, purged_dropFailed, hdrop, take_append_drop, RedisQueue.setKeys_setKeys,
          length_drop, htotal]
      · rw [hkeys, purged_dropFailed, length_drop]
        omega

/-- A job is selected on both sides or on neither. -/
theorem Mirrors.mem_purged (hm : Mirrors c queue N mem k num) (hbefore : before = 0 ∨ Whole before)
    (id : String) :
    id ∈ purged (if before = 0 then none else some (unixMilli before)) k ↔
      ∃ j, mem.jobs.lookup ⟨queue, id⟩ = some j ∧ MemoryQueue.purges queue before j = true := by
  rw [Jobs.mem_purged, hm.lookup_failed]
  cases hj : mem.jobs.lookup ⟨queue, id⟩ with
  | none => simp
  | some j =>
    have hq := (Mirrors.key hj).1
    unfold purges
    cases hf : j.failure with
    | none => simp [hf]
    | some f =>
      obtain ⟨hkeep, hw, -⟩ := (hm.stored _ j hj).tame.failure f hf
      have hearly := hkeep.early
      simp only [Option.bind_some, hf, Option.map_some, Option.some.injEq, exists_eq_left', hq,
        decide_true, Bool.true_and, decide_eq_true_eq, hw.score_eq hearly.le]
      by_cases hzero : before = 0
      · simp [hzero]
      · have hb := hbefore.resolve_left hzero
        simp only [hzero, if_false, Option.some.injEq, forall_eq', false_or]
        rw [← not_le, onAbs_toDouble_le_iff hb.2 hearly hw.2, hb.le_iff hw, not_le]

/-- As many jobs are selected on both sides. -/
theorem Mirrors.length_purged (hm : Mirrors c queue N mem k num)
    (hbefore : before = 0 ∨ Whole before) :
    (purged (if before = 0 then none else some (unixMilli before)) k).length =
      mem.jobList.countP (MemoryQueue.purges queue before) := by
  have hperm : (purged (if before = 0 then none else some (unixMilli before)) k).Perm
      ((mem.jobList.filter (purges queue before)).map fun j => j.env.id) := by
    have hqueue : ∀ {j}, purges queue before j = true → j.queue = queue := by
      intro j hp
      simp only [purges, Bool.and_eq_true, decide_eq_true_eq] at hp
      exact hp.1
    rw [perm_ext_iff_of_nodup (nodup_purged _ _)]
    · intro id
      rw [hm.mem_purged hbefore, mem_map]
      simp only [mem_filter, mem_jobList]
      constructor
      · rintro ⟨j, hj, hp⟩
        exact ⟨j, ⟨by rw [mem.keyed _ _ hj]; exact hj, hp⟩, (Mirrors.key hj).2⟩
      · rintro ⟨j, ⟨hj, hp⟩, rfl⟩
        refine ⟨j, ?_, hp⟩
        rw [← hqueue hp]
        exact hj
    · refine List.Nodup.map_on ?_ (mem.nodup_jobList.filter _)
      intro i hi j hj hids
      obtain ⟨hi, hpi⟩ := mem_filter.1 hi
      obtain ⟨hj, hpj⟩ := mem_filter.1 hj
      have hkeys : i.key = j.key := by
        unfold MemoryJob.key
        rw [hqueue hpi, hqueue hpj, hids]
      rw [mem_jobList] at hi hj
      rw [hkeys, hj] at hi
      exact (Option.some.inj hi).symm
  rw [hperm.length_eq, length_map, countP_eq_length_filter]

theorem purgeFailed_simulates (h : Related c now drawn mem red)
    (hname : validName queue = true) (hbefore : before = 0 ∨ Whole before) :
    Simulates c now drawn (.purgeFailed queue before) mem red := by
  obtain ⟨num, hm⟩ := h.queues queue
  obtain ⟨ids, hids⟩ : ∃ ids, purged (if before = 0 then none else some (unixMilli before))
    (red.keys queue) = ids := ⟨_, rfl⟩
  have hmem := hm.mem_purged hbefore
  have hlength := hm.length_purged hbefore
  rw [hids] at hmem hlength
  have hle : ids.length < ((red.keys queue).set .failed).keys.length + 1 := by
    rw [hm.length_set, hlength, Nat.lt_succ_iff, jobsOf, countP_filter]
    refine countP_mono_left fun j _ hp => ?_
    simp only [purges, Bool.and_eq_true, decide_eq_true_eq] at hp ⊢
    obtain ⟨hq, hp⟩ := hp
    cases hf : j.failure with
    | none => simp [hf] at hp
    | some f => exact ⟨(MemoryJob.failed_place hf 0).1, hq⟩
  have hloop := purgeLoop_eq queue
    (if before = 0 then none else some (unixMilli before))
    (((red.keys queue).set .failed).keys.length + 1) 0 red (hids.symm ▸ hle)
  rw [hids, Nat.zero_add, hlength] at hloop
  have hstep : mem.step (.purgeFailed queue before) (.const now) =
      (.purged (mem.jobList.countP (purges queue before)),
        mem.dropJobs (purges queue before)) := by
    simp [step, purgeFailed, hname, h.memOpen]
  have hred : red.step c now (.purgeFailed queue before) = _ :=
    (by simp [RedisQueue.step, RedisQueue.purgeFailed, hname, h.redOpen] :
      red.step c now (.purgeFailed queue before) = RedisQueue.purgeLoop queue
        (if before = 0 then none else some (unixMilli before))
        (((red.keys queue).set .failed).keys.length + 1) red 0).trans hloop
  have hdrawn : drawnAfter drawn (.purgeFailed queue before) = drawn := by
    funext queue'
    simp [drawnAfter, Op.drawsOn]
  unfold Simulates
  rw [hstep, hred, hdrawn]
  have hkept : ∀ key j, mem.jobs.lookup key = some j →
      purges queue before j = false →
      (mem.dropJobs (purges queue before)).jobs.lookup key = some j := by
    intro key j hj hp
    simp [hj, hp, Option.filter]
  refine ⟨rfl, h.onQueue rfl le_rfl ?_ (fun _ _ => rfl) ⟨num, ?_⟩ (fun queue' _ key =>
    h.uniques queue' key) ?_ h.once⟩
  · intro queue' hne id
    cases hj : mem.jobs.lookup ⟨queue', id⟩ with
    | none => simp [hj]
    | some j =>
      refine hkept _ j hj ?_
      simp [purges, (Mirrors.key hj).1, hne]
  · refine hm.remove (p := fun id => id ∈ ids) ?_ (seq_dropFailed _ _) rfl ?_ (job_dropFailed _ _) ?_
    · refine hm.consistent_after (.purgeFailed (if before = 0 then none else some (unixMilli before))
        ids.length) trivial ?_ ((seq_dropFailed _ _).le.trans (hm.seq_le.trans hm.bound))
      rw [Call.exec, after_eq (run_purgeFailedScript ..), purgeable_eq, hids, take_length]
    · intro id
      have hid := hmem id
      cases hj : mem.jobs.lookup ⟨queue, id⟩ with
      | none => simp [hj]
      | some j =>
        cases hp : purges queue before j with
        | false =>
          rw [if_neg (by simp [hid, hj, hp])]
          exact hkept _ j hj hp
        | true =>
          rw [if_pos (by simp [hid, hj, hp])]
          simp [hj, hp, Option.filter]
    · intro key m hid
      rw [lookup_dropFailed, if_neg]
      rintro ⟨rfl, hm⟩
      exact hid hm
  · intro key
    rw [unique_dropFailed]
    exact h.uniques queue key

end Reads

end Gombit.Jobs
