import Gombit.Jobs.Equivalence

/-!
# Listing failed jobs while they change

`RedisQueue.Failed` reads the failed set in pages, one script each, and between two pages other
clients do as they like: the next page starts from a cursor that may be gone or moved.

`listFailed` is the loop of `Failed` with a page size of its own and any change whatever between the
pages. `ahead` says which members a page starting from a cursor has before it; everything follows
from how a page moves it.

* `failed_listing`: no id twice, nobody who stays is missed, the limit is kept, and the call ends once
  the failed set stops changing.
-/

namespace Gombit.Jobs

open Redis RedisKeys List RedisQueue

variable {out : List FailedJob}

/-! ## Where a page starts -/

/-- Descending rows, most recent first. -/
theorem newestFirst_pairwise (s : SortedSet String) :
    (newestFirst s).Pairwise fun a b => toLex b < toLex a := by
  rw [newestFirst, pairwise_reverse, pairwise_map]
  exact s.sorted_pairwise

/-- The rows a page starting from the cursor has before it: those after the cursor when its job is
still there at that score, else those from its failure instant on. -/
def ahead (failed : SortedSet String) : Option (ℤ × String) → ℤ × String → Bool
  | none, _ => true
  | some (score, id), row =>
    if failed.lookup id = some score then toLex row < toLex (score, id) else row.1 ≤ score

/-- In a descending list, dropping the rows that do not have a property the later ones have leaves
those that do. -/
theorem drop_countP_not {l : List (ℤ × String)} (hl : l.Pairwise fun a b => toLex b < toLex a)
    {p : ℤ × String → Bool} (hp : ∀ a b, toLex b < toLex a → p a = true → p b = true) :
    l.drop (l.countP fun a => !p a) = l.filter p := by
  induction l with
  | nil => rfl
  | cons a l ih =>
    obtain ⟨hafter, hl⟩ := pairwise_cons.1 hl
    by_cases ha : p a = true
    · have hall : ∀ b ∈ l, p b = true := fun b hb => hp a b (hafter b hb) ha
      have hzero : l.countP (fun a => !p a) = 0 := by
        rw [countP_eq_zero]
        intro b hb
        simp [hall b hb]
      rw [countP_cons, hzero, filter_cons_of_pos ha, filter_eq_self.2 hall]
      simp [ha]
    · rw [countP_cons, filter_cons_of_neg ha]
      simp only [ha, Bool.not_false, if_true, drop_succ_cons]
      exact ih hl

theorem idxOf_succ {l : List (ℤ × String)} (hl : l.Pairwise fun a b => toLex b < toLex a)
    {x : ℤ × String} (hx : x ∈ l) :
    l.idxOf x + 1 = l.countP fun a => !decide (toLex a < toLex x) := by
  induction l with
  | nil => cases hx
  | cons a l ih =>
    obtain ⟨hafter, hl⟩ := pairwise_cons.1 hl
    by_cases hax : a = x
    · subst hax
      have hzero : l.countP (fun b => !decide (toLex b < toLex a)) = 0 := by
        rw [countP_eq_zero]
        intro b hb
        simp [hafter b hb]
      rw [countP_cons, hzero]
      simp
    · have hmem : x ∈ l := (mem_cons.1 hx).resolve_left fun h => hax h.symm
      rw [idxOf_cons_ne _ hax, Nat.succ_eq_add_one, ih hl hmem, countP_cons]
      simp [not_lt.2 (hafter x hmem).le]

/-- **A page starts** with the rows ahead of its cursor. -/
theorem drop_pageStart (failed : SortedSet String) (cursor : Option (ℤ × String)) :
    (newestFirst failed).drop (pageStart failed cursor) =
      (newestFirst failed).filter (ahead failed cursor) := by
  have hdesc := newestFirst_pairwise failed
  cases cursor with
  | none => exact (filter_eq_self.2 fun _ _ => rfl).symm
  | some cursor =>
    obtain ⟨score, id⟩ := cursor
    by_cases hthere : failed.lookup id = some score
    · have hp : ∀ a b : ℤ × String, toLex b < toLex a →
          decide (toLex a < toLex (score, id)) = true →
            decide (toLex b < toLex (score, id)) = true := by
        intro a b hab ha
        exact decide_eq_true (hab.trans (of_decide_eq_true ha))
      rw [pageStart, if_pos hthere, idxOf_succ hdesc (mem_newestFirst.2 hthere),
        drop_countP_not hdesc hp]
      exact filter_congr fun row _ => by simp [ahead, hthere]
    · have hp : ∀ a b : ℤ × String, toLex b < toLex a → decide (a.1 ≤ score) = true →
          decide (b.1 ≤ score) = true := by
        intro a b hab ha
        have hle : b.1 ≤ a.1 := Prod.Lex.monotone_fst _ _ hab.le
        exact decide_eq_true (hle.trans (of_decide_eq_true ha))
      have hcount : ((newestFirst failed).countP fun row => decide (score < row.1)) =
          (newestFirst failed).countP fun row => !decide (row.1 ≤ score) :=
        countP_congr fun row _ => by simp
      rw [pageStart, if_neg hthere, hcount, drop_countP_not hdesc hp]
      exact filter_congr fun row _ => by simp [ahead, hthere]

/-! ## One page -/

/-- The row's job has the record of a failed job. -/
def RedisKeys.alive (k : RedisKeys) (row : ℤ × String) : Bool :=
  (k.job row.2).env.isSome && (k.job row.2).failure.isSome

/-- The keys without some members of the failed set. -/
def RedisKeys.dropMembers (k : RedisKeys) (rows : List (ℤ × String)) : RedisKeys :=
  rows.foldl (fun k row => k.zrem .failed row.2) k

theorem dropMembers_job (k : RedisKeys) (rows : List (ℤ × String)) :
    (k.dropMembers rows).job = k.job := by
  induction rows generalizing k with
  | nil => rfl
  | cons row rows ih => exact ih _

theorem lookup_dropMembers (k : RedisKeys) (rows : List (ℤ × String)) (id : String) :
    ((k.dropMembers rows).set .failed).lookup id =
      if id ∈ rows.map Prod.snd then none else (k.set .failed).lookup id := by
  induction rows generalizing k with
  | nil => simp [RedisKeys.dropMembers]
  | cons row rows ih =>
    have hcons : (k.dropMembers (row :: rows)) = (k.zrem .failed row.2).dropMembers rows := rfl
    rw [hcons, ih]
    by_cases hid : id = row.2
    · subst hid
      simp [RedisKeys.zrem]
    · rw [lookup_zrem_ne _ _ _ (by simp [hid])]
      simp only [map_cons, mem_cons, hid, false_or]

/-- **A scan** looks at its first rows, up to the `want`-th job it finds: it returns the jobs among
them and drops the members without a record. -/
theorem run_scanRows_spec (k : RedisKeys) (want : ℕ) (rows : List (ℤ × String)) (page : FailedPage) :
    ∃ looked rest page', rows = looked ++ rest ∧
      (scanRows want rows page).run k =
        .ok page' (k.dropMembers (looked.filter fun row => !k.alive row)) ∧
      page'.rows = page.rows ++ (looked.filter k.alive).map k.failedRow ∧
      page'.cursor = looked.getLast?.or page.cursor ∧
      (page'.done = true → page.done = true ∧ rest = []) ∧
      (page'.done = false → page.done = false ∨ rest ≠ []) ∧
      (rest ≠ [] → looked ≠ []) ∧
      (page.rows.length < want → page'.rows.length ≤ want) := by
  induction rows generalizing k page with
  | nil =>
    refine ⟨[], [], page, rfl, rfl, by simp, rfl, by simp, fun h => .inl h, by simp, fun h => h.le⟩
  | cons row rows ih =>
    obtain ⟨score, id⟩ := row
    by_cases hrow : k.alive (score, id) = true
    · obtain ⟨henv, hfailure⟩ := Bool.and_eq_true_iff.1 hrow
      rw [run_scanRows_cons k henv hfailure]
      split
      next hfull =>
        -- the page is full
        refine ⟨[(score, id)], rows, ⟨page.done && rows.isEmpty, some (score, id),
          page.rows ++ [k.failedRow (score, id)]⟩, rfl, ?_, by simp [hrow], rfl, ?_, ?_, by simp,
          fun _ => hfull.le⟩
        · simp [hrow, RedisKeys.dropMembers]
        · simp
        · cases rows <;> simp
      next hmore =>
        obtain ⟨looked, rest, page', hrows, hrun, hpage, hcursor, hdone, hnot, hrest, hwant⟩ :=
          ih k ⟨page.done, some (score, id), page.rows ++ [k.failedRow (score, id)]⟩
        refine ⟨(score, id) :: looked, rest, page', by rw [hrows, cons_append], ?_, ?_, ?_, hdone,
          hnot, by simp, fun hlt => hwant ?_⟩
        · simpa [hrow] using hrun
        · simp [hpage, hrow]
        · rw [hcursor, List.getLast?_cons]
          cases looked.getLast? <;> rfl
        · simp only [length_append, length_singleton] at hmore ⊢
          omega
    · have halive : (k.zrem .failed id).alive = k.alive := rfl
      obtain ⟨looked, rest, page', hrows, hrun, hpage, hcursor, hdone, hnot, hrest, hwant⟩ :=
        ih (k.zrem .failed id) ⟨page.done, some (score, id), page.rows⟩
      refine ⟨(score, id) :: looked, rest, page', by rw [hrows, cons_append], ?_, ?_, ?_, hdone,
        hnot, by simp, hwant⟩
      · have hstep : (scanRows want ((score, id) :: rows) page).run k =
            (scanRows want rows ⟨page.done, some (score, id), page.rows⟩).run (k.zrem .failed id) := by
          simp only [scanRows, EStateM.run_bind, run_hget]
          cases henv : (k.job id).env with
          | none => simp
          | some env =>
            cases hfailure : (k.job id).failure with
            | none => simp
            | some failure => exact absurd (by simp [RedisKeys.alive, henv, hfailure]) hrow
        rw [hstep, hrun, halive]
        simp [hrow, RedisKeys.dropMembers]
      · rw [hpage, halive, filter_cons_of_neg hrow]
        rfl
      · rw [hcursor, List.getLast?_cons]
        cases looked.getLast? <;> rfl

/-- The rows ahead of a cursor, most recent first. -/
def rowsAhead (failed : SortedSet String) (cursor : Option (ℤ × String)) : List (ℤ × String) :=
  (newestFirst failed).filter (ahead failed cursor)

theorem mem_rowsAhead {failed : SortedSet String} {cursor : Option (ℤ × String)} {row : ℤ × String} :
    row ∈ rowsAhead failed cursor ↔
      failed.lookup row.2 = some row.1 ∧ ahead failed cursor row = true := by
  rw [rowsAhead, mem_filter, mem_newestFirst]

/-- A page that looked at the rows `looked` and left `unread` of those ahead of its cursor. -/
structure Looks (k : RedisKeys) (want : ℕ) (cursor : Option (ℤ × String))
    (looked unread : List (ℤ × String)) (page : FailedPage) : Prop where
  rows : rowsAhead (k.set .failed) cursor = looked ++ unread
  found : page.rows = (looked.filter k.alive).map k.failedRow
  cursor : page.cursor = looked.getLast?.or cursor
  done : page.done = true → unread = []
  more : page.done = false → looked ≠ []
  want : 0 < want → page.rows.length ≤ want

/-- **A page** looks at the first rows ahead of its cursor and moves the cursor to the last of them. -/
theorem run_failedScan (k : RedisKeys) (want : ℕ) {size : ℕ} (hsize : 1 ≤ size)
    (cursor : Option (ℤ × String)) :
    ∃ looked unread page, Looks k want cursor looked unread page ∧
      (failedScanScript want size cursor).run k =
        .ok page (k.dropMembers (looked.filter fun row => !k.alive row)) := by
  set rows := rowsAhead (k.set .failed) cursor with hrows
  obtain ⟨looked, rest, page, htake, hrun, hpage, hcursor, hdone, hnot, hrest, hwant⟩ :=
    run_scanRows_spec k want (rows.take size)
      ⟨decide ((rows.take size).length ≠ size), cursor, []⟩
  have hscan : (failedScanScript want size cursor).run k =
      .ok page (k.dropMembers (looked.filter fun row => !k.alive row)) := by
    rw [← hrun, hrows, rowsAhead, ← drop_pageStart]
    simp [failedScanScript]
  refine ⟨looked, rest ++ rows.drop size, page, ⟨?_, hpage, hcursor, fun h => ?_, fun h => ?_, hwant⟩,
    hscan⟩
  · rw [← append_assoc, ← htake, take_append_drop]
  · obtain ⟨hshort, rfl⟩ := hdone h
    have hlt : rows.length ≤ size := by
      have hne := of_decide_eq_true hshort
      rw [length_take] at hne
      omega
    simpa using hlt
  · rcases hnot h with hfull | hmore
    · rintro rfl
      have hlen := of_decide_eq_false hfull
      have hnil : rest = [] := by
        by_contra hne
        exact hrest hne rfl
      rw [htake, hnil] at hlen
      simp only [nil_append, length_nil, ne_eq, not_not] at hlen
      omega
    · exact hrest hmore

/-! ## The jobs of a page -/

/-- The results of `mapM`, one for each element. -/
theorem forall₂_of_mapM {α β ε : Type} {f : α → Except ε β} {l : List α} {l' : List β}
    (h : l.mapM f = .ok l') : List.Forall₂ (fun a b => f a = .ok b) l l' := by
  induction l generalizing l' with
  | nil =>
    cases h
    exact .nil
  | cons a l ih =>
    rw [mapM_cons] at h
    cases ha : f a with
    | error e => simp [ha, bind, Except.bind] at h
    | ok b =>
      cases hl : l.mapM f with
      | error e => simp [ha, hl, bind, Except.bind] at h
      | ok bs =>
        simp only [ha, hl, bind, Except.bind, pure, Except.pure, Except.ok.injEq] at h
        subst h
        exact .cons ha (ih hl)

theorem exists_of_forall₂ {α β : Type} {R : α → β → Prop} {l : List α} {l' : List β}
    (h : List.Forall₂ R l l') {a : α} (ha : a ∈ l) : ∃ b ∈ l', R a b := by
  induction h with
  | nil => cases ha
  | cons hab _ ih =>
    rcases mem_cons.1 ha with rfl | ha
    · exact ⟨_, mem_cons_self, hab⟩
    · obtain ⟨b, hb, hab⟩ := ih ha
      exact ⟨b, mem_cons_of_mem _ hb, hab⟩

/-- The ids of jobs. -/
def ids (jobs : List FailedJob) : List String := jobs.map fun job => job.envelope.id

theorem addPage_cons (out : List FailedJob) (job : FailedJob) (page : List FailedJob) :
    addPage out (job :: page) =
      addPage (if job.envelope.id ∈ ids out then out else out ++ [job]) page := by
  have hany : (out.any fun seen => decide (seen.envelope.id = job.envelope.id)) = true ↔
      job.envelope.id ∈ ids out := by
    simp [ids]
  simp only [addPage, foldl_cons, hany]

theorem mem_ids_addPage {page : List FailedJob} {id : String} :
    id ∈ ids (addPage out page) ↔ id ∈ ids out ∨ id ∈ ids page := by
  induction page generalizing out with
  | nil => simp [addPage, ids]
  | cons job page ih =>
    rw [addPage_cons, ih]
    split_ifs with hseen
    · simp only [ids, map_cons, mem_cons] at hseen ⊢
      constructor
      · rintro (h | h)
        exacts [.inl h, .inr (.inr h)]
      · rintro (h | rfl | h)
        exacts [.inl h, .inl hseen, .inr h]
    · simp only [ids, map_append, map_cons, map_nil, mem_append, mem_cons,
        not_mem_nil, or_false, or_assoc]

theorem nodup_addPage (h : (ids out).Nodup) (page : List FailedJob) :
    (ids (addPage out page)).Nodup := by
  induction page generalizing out with
  | nil => exact h
  | cons job page ih =>
    rw [addPage_cons]
    split_ifs with hseen
    · exact ih h
    · refine ih ?_
      rw [ids, map_append, nodup_append']
      refine ⟨h, by simp, ?_⟩
      simpa [disjoint_singleton, ids] using hseen

theorem length_addPage (out page : List FailedJob) :
    (addPage out page).length ≤ out.length + page.length := by
  induction page generalizing out with
  | nil => exact le_rfl
  | cons job page ih =>
    rw [addPage_cons]
    refine (ih _).trans ?_
    split_ifs
    · simp only [length_cons]
      omega
    · simp only [length_append, length_cons, length_nil]
      omega

/-- The id of the job a record holds: its envelope's, or the member's when the envelope cannot be
read. -/
def Codec.jobID (c : Codec) (id data : String) : String :=
  match c.unmarshalEnvelope data with
  | .ok e => e.id
  | .error _ => id

theorem decodeFailedJob_id {c : Codec} {queue id data failure : String} {attempts : ℕ}
    {job : FailedJob} (h : c.decodeFailedJob queue id data attempts failure = .ok job) :
    job.envelope.id = c.jobID id data := by
  unfold Codec.decodeFailedJob at h
  split_ifs at h
  cases hf : c.unmarshalFailure failure with
  | error e => simp [hf] at h
  | ok f =>
    simp only [hf] at h
    cases he : c.unmarshalEnvelope data with
    | error e =>
      simp only [he, Except.ok.injEq] at h
      subst h
      simp [Codec.jobID, he, Envelope.bare]
    | ok e =>
      simp only [he, Except.ok.injEq] at h
      subst h
      simp [Codec.jobID, he]

/-! ## The whole call -/

section Call

variable (c : Codec) (queue : String) {size : ℕ} (limit : ℤ) (others : ℕ → RedisKeys → RedisKeys)

/-- **One page of the loop.** The call fails to decode the page, ends with it, or goes on. -/
theorem listFailed_succ (hsize : 1 ≤ size) (i : ℕ) (k : RedisKeys) (out : List FailedJob)
    (cursor : Option (ℤ × String)) :
    ∃ looked unread page, Looks k (wanted size limit out) cursor looked unread page ∧
      ((∃ e k', ∀ fuel, listFailed c queue size limit others (fuel + 1) i k out cursor =
          some ⟨out, some e, k'⟩) ∨
        ∃ jobs, decodePage c queue page.rows = .ok jobs ∧
          ((page.done = true ∨ 0 < limit ∧ limit ≤ (addPage out jobs).length) ∧
              (∃ k', ∀ fuel, listFailed c queue size limit others (fuel + 1) i k out cursor =
                some ⟨addPage out jobs, none, k'⟩) ∨
            ¬(page.done = true ∨ 0 < limit ∧ limit ≤ (addPage out jobs).length) ∧
              ∀ fuel, listFailed c queue size limit others (fuel + 1) i k out cursor =
                listFailed c queue size limit others fuel (i + 1)
                  (others i (k.dropMembers (looked.filter fun row => !k.alive row)))
                  (addPage out jobs) page.cursor)) := by
  obtain ⟨looked, unread, page, hlooks, hrun⟩ :=
    run_failedScan k (wanted size limit out) hsize cursor
  refine ⟨looked, unread, page, hlooks, ?_⟩
  simp only [listFailed, hrun]
  cases hdecode : decodePage c queue page.rows with
  | error e => exact .inl ⟨e, _, fun _ => rfl⟩
  | ok jobs =>
    refine .inr ⟨jobs, rfl, ?_⟩
    by_cases hend : page.done = true ∨ 0 < limit ∧ limit ≤ (addPage out jobs).length
    · exact .inl ⟨hend, _, fun _ => if_pos hend⟩
    · exact .inr ⟨hend, fun _ => if_neg hend⟩

variable {c queue limit others} {fuel i : ℕ} {k : RedisKeys} {out : List FailedJob}
  {cursor : Option (ℤ × String)} {l : Listing} {id jobID : String} {s : ℤ}

/-- **No id twice.** -/
theorem listFailed_nodup (hsize : 1 ≤ size)
    (h : listFailed c queue size limit others fuel i k out cursor = some l) (hout : (ids out).Nodup) :
    (ids l.jobs).Nodup := by
  induction fuel generalizing i k out cursor with
  | zero => cases h
  | succ fuel ih =>
    obtain ⟨_, _, page, -, ⟨e, _, heq⟩ | ⟨jobs, -, ⟨-, _, heq⟩ | ⟨-, heq⟩⟩⟩ :=
      listFailed_succ c queue limit others hsize i k out cursor
    · cases (heq fuel).symm.trans h
      exact hout
    · cases (heq fuel).symm.trans h
      exact nodup_addPage hout jobs
    · exact ih ((heq fuel).symm.trans h) (nodup_addPage hout jobs)

/-- **The limit is kept.** -/
theorem listFailed_limit (hsize : 1 ≤ size) (hlimit : 0 < limit)
    (h : listFailed c queue size limit others fuel i k out cursor = some l)
    (hout : out.length < limit) : l.jobs.length ≤ limit := by
  induction fuel generalizing i k out cursor with
  | zero => cases h
  | succ fuel ih =>
    obtain ⟨_, _, page, hlooks, hcases⟩ :=
      listFailed_succ c queue limit others hsize i k out cursor
    have hwanted : 0 < wanted size limit out ∧ out.length + wanted size limit out ≤ limit := by
      unfold wanted
      split_ifs <;> omega
    have hadd : ∀ jobs, decodePage c queue page.rows = .ok jobs →
        (addPage out jobs).length ≤ limit := by
      intro jobs hjobs
      have hlen := (forall₂_of_mapM hjobs).length_eq
      have hle := length_addPage out jobs
      have hpage := hlooks.want hwanted.1
      omega
    obtain ⟨e, _, heq⟩ | ⟨jobs, hjobs, ⟨-, _, heq⟩ | ⟨hmore, heq⟩⟩ := hcases
    · cases (heq fuel).symm.trans h
      exact hout.le
    · cases (heq fuel).symm.trans h
      exact hadd jobs hjobs
    · refine ih ((heq fuel).symm.trans h) ?_
      by_contra hfull
      exact hmore (.inr ⟨hlimit, not_lt.1 hfull⟩)

/-- The job stays in the failed set, with the failure time `s` and its record. -/
structure Stays (c : Codec) (id : String) (s : ℤ) (jobID : String) (k : RedisKeys) : Prop where
  failed : (k.set .failed).lookup id = some s
  alive : k.alive (s, id) = true
  record : ∃ data, (k.job id).env = some data ∧ c.jobID id data = jobID

theorem ahead_of_lt {failed : SortedSet String} {row : ℤ × String}
    (h : ∀ x, cursor = some x → toLex row < toLex x) : ahead failed cursor row = true := by
  cases cursor with
  | none => rfl
  | some x =>
    obtain ⟨score, id⟩ := x
    have hlt := h (score, id) rfl
    have hle : row.1 ≤ score := Prod.Lex.monotone_fst _ _ hlt.le
    simp only [ahead]
    split_ifs
    · exact decide_eq_true hlt
    · exact decide_eq_true hle

/-- The scan does not drop it. -/
theorem Stays.dropMembers (h : Stays c id s jobID k) (looked : List (ℤ × String)) :
    Stays c id s jobID (k.dropMembers (looked.filter fun row => !k.alive row)) where
  failed := by
    rw [lookup_dropMembers, if_neg, h.failed]
    intro hmem
    obtain ⟨⟨score, id'⟩, hrow, rfl⟩ := mem_map.1 hmem
    have hdead := (mem_filter.1 hrow).2
    have halive : k.alive (score, id') = true := h.alive
    rw [halive] at hdead
    cases hdead
  alive := by
    have halive := h.alive
    unfold RedisKeys.alive at halive ⊢
    rwa [dropMembers_job]
  record := by
    rw [dropMembers_job]
    exact h.record

/-- A page that has its row has its job. -/
theorem Stays.mem_ids (h : Stays c id s jobID k) {rows : List FailedRow} {jobs : List FailedJob}
    (hjobs : decodePage c queue rows = .ok jobs) (hrow : k.failedRow (s, id) ∈ rows) :
    jobID ∈ ids jobs := by
  obtain ⟨job, hjob, hdecode⟩ := exists_of_forall₂ (forall₂_of_mapM hjobs) hrow
  obtain ⟨data, hdata, rfl⟩ := h.record
  have hid := decodeFailedJob_id hdecode
  simp only [RedisKeys.failedRow, hdata, Option.getD_some] at hid
  exact mem_map.2 ⟨job, hjob, hid⟩

/-- A page finds a job that stays and is ahead of its cursor, or leaves it ahead. -/
theorem listFailed_complete (hsize : 1 ≤ size)
    (hothers : ∀ i k, Stays c id s jobID k → Stays c id s jobID (others i k))
    (h : listFailed c queue size limit others fuel i k out cursor = some l) (hok : l.err = none)
    (hlimit : limit ≤ 0 ∨ l.jobs.length < limit) (hstays : Stays c id s jobID k)
    (hseen : jobID ∈ ids out ∨ ∀ x, cursor = some x → toLex (s, id) < toLex x) :
    jobID ∈ ids l.jobs := by
  induction fuel generalizing i k out cursor with
  | zero => cases h
  | succ fuel ih =>
    obtain ⟨looked, unread, page, hlooks, hcases⟩ :=
      listFailed_succ c queue limit others hsize i k out cursor
    obtain ⟨e, _, heq⟩ | ⟨jobs, hjobs, hcases⟩ := hcases
    · cases (heq fuel).symm.trans h
      cases hok
    -- found by now, or among the rows the page left
    have hnext : jobID ∈ ids (addPage out jobs) ∨ (s, id) ∈ unread := by
      rw [mem_ids_addPage]
      rcases hseen with hseen | hbefore
      · exact .inl (.inl hseen)
      · have hmem : (s, id) ∈ looked ++ unread := by
          rw [← hlooks.rows, mem_rowsAhead]
          exact ⟨hstays.failed, ahead_of_lt hbefore⟩
        refine (mem_append.1 hmem).imp_left fun hlooked => .inr ?_
        exact hstays.mem_ids hjobs (by
          rw [hlooks.found]
          exact mem_map_of_mem (mem_filter.2 ⟨hlooked, hstays.alive⟩))
    obtain ⟨hend, _, heq⟩ | ⟨hmore, heq⟩ := hcases
    · cases (heq fuel).symm.trans h
      refine hnext.resolve_right fun hunread => ?_
      rcases hend with hdone | ⟨hpos, hfull⟩
      · rw [hlooks.done hdone] at hunread
        cases hunread
      · dsimp only at hlimit
        omega
    · refine ih ((heq fuel).symm.trans h) (hothers i _ (hstays.dropMembers looked)) (hnext.imp_right ?_)
      intro hunread x hx
      have hlooked : looked ≠ [] := hlooks.more (by
        by_contra hdone
        exact hmore (.inl (by simpa using hdone)))
      rw [hlooks.cursor, List.getLast?_eq_some_getLast hlooked] at hx
      obtain rfl := Option.some.inj hx
      have hdesc := (newestFirst_pairwise (k.set .failed)).filter (ahead (k.set .failed) cursor)
      rw [show (newestFirst (k.set .failed)).filter _ = looked ++ unread from hlooks.rows,
        pairwise_append] at hdesc
      exact hdesc.2.2 _ (getLast_mem hlooked) _ hunread

/-! ### The end -/

/-- Later rows are ahead of a cursor when an earlier one is. -/
theorem ahead_mono {failed : SortedSet String} {a b : ℤ × String}
    (hab : toLex b < toLex a) (ha : ahead failed cursor a = true) : ahead failed cursor b = true := by
  cases cursor with
  | none => rfl
  | some x =>
    obtain ⟨score, id⟩ := x
    have hle : b.1 ≤ a.1 := Prod.Lex.monotone_fst _ _ hab.le
    simp only [ahead] at ha ⊢
    split_ifs at ha ⊢
    · exact decide_eq_true (hab.trans (of_decide_eq_true ha))
    · exact decide_eq_true (hle.trans (of_decide_eq_true ha))

/-- **Progress.** Over a page that is not the last, the failed set loses a member, or the rows ahead
of the cursor do. -/
theorem Looks.progress {want : ℕ} {looked unread : List (ℤ × String)} {page : FailedPage}
    (h : Looks k want cursor looked unread page) (hmore : page.done = false) {failed : SortedSet String}
    (hfailed : failed = (k.dropMembers (looked.filter fun row => !k.alive row)).set .failed) :
    failed.keys.length < (k.set .failed).keys.length ∨
      failed.keys.length ≤ (k.set .failed).keys.length ∧
        (rowsAhead failed page.cursor).length < (rowsAhead (k.set .failed) cursor).length := by
  have hlookup : ∀ id, failed.lookup id =
      if id ∈ (looked.filter fun row => !k.alive row).map Prod.snd then none
      else (k.set .failed).lookup id := fun id => by rw [hfailed, lookup_dropMembers]
  have hsub : failed.keys ⊆ (k.set .failed).keys := by
    intro id hid
    rw [← AList.mem_keys, ← AList.lookup_isSome] at hid ⊢
    rw [hlookup] at hid
    split_ifs at hid
    · cases hid
    · exact hid
  have hlooked := h.more hmore
  set last := looked.getLast hlooked with hlast
  have hmem : last ∈ looked := getLast_mem hlooked
  have hrows : last ∈ rowsAhead (k.set .failed) cursor := by
    rw [h.rows]
    exact mem_append_left _ hmem
  obtain ⟨hset, hahead⟩ := mem_rowsAhead.1 hrows
  have hcursor : page.cursor = some last := by
    rw [h.cursor, List.getLast?_eq_some_getLast hlooked]
    rfl
  by_cases halive : k.alive last = true
  · -- the cursor is there: what is ahead of it was ahead before, and it was too
    refine .inr ⟨(subperm_of_subset failed.keys_nodup hsub).length_le, ?_⟩
    have hthere : failed.lookup last.2 = some last.1 := by
      rw [hlookup, if_neg, hset]
      intro hdead
      obtain ⟨row, hrow, hid⟩ := mem_map.1 hdead
      have hrow := (mem_filter.1 hrow).2
      have hsame : k.alive row = k.alive last := by simp only [RedisKeys.alive, hid]
      rw [hsame, halive] at hrow
      cases hrow
    have hiff : ∀ row, row ∈ rowsAhead failed page.cursor ↔
        failed.lookup row.2 = some row.1 ∧ toLex row < toLex last := by
      intro row
      rw [mem_rowsAhead, hcursor]
      simp [ahead, hthere]
    have hnodup : (last :: rowsAhead failed page.cursor).Nodup := by
      rw [nodup_cons, hiff]
      exact ⟨fun hself => lt_irrefl _ hself.2, (newestFirst_nodup failed).filter _⟩
    have hsubset : last :: rowsAhead failed page.cursor ⊆ rowsAhead (k.set .failed) cursor := by
      intro row hrow
      rcases mem_cons.1 hrow with rfl | hrow
      · exact hrows
      · obtain ⟨hrow, hlt⟩ := (hiff row).1 hrow
        refine mem_rowsAhead.2 ⟨?_, ahead_mono hlt hahead⟩
        rw [hlookup] at hrow
        split_ifs at hrow
        exact hrow
    exact (subperm_of_subset hnodup hsubset).length_le
  · -- the scan dropped the cursor
    have hgone : last.2 ∉ failed.keys := by
      rw [← AList.mem_keys, ← AList.lookup_isSome, hlookup, if_pos]
      · simp
      · exact mem_map_of_mem (mem_filter.2 ⟨hmem, by simpa using halive⟩)
    have hwas : last.2 ∈ (k.set .failed).keys := by
      rw [← AList.mem_keys, ← AList.lookup_isSome, hset]
      rfl
    have hnodup : (last.2 :: failed.keys).Nodup := nodup_cons.2 ⟨hgone, failed.keys_nodup⟩
    exact .inl (subperm_of_subset hnodup (cons_subset.2 ⟨hwas, hsub⟩)).length_le

/-- A call that can end from its next page can end. -/
theorem listFailed_ends_of_next (hsize : 1 ≤ size)
    (hnext : ∀ looked unread page, Looks k (wanted size limit out) cursor looked unread page →
      page.done = false → ∀ out', ∃ fuel l, listFailed c queue size limit others fuel (i + 1)
        (others i (k.dropMembers (looked.filter fun row => !k.alive row))) out' page.cursor = some l) :
    ∃ fuel l, listFailed c queue size limit others fuel i k out cursor = some l := by
  obtain ⟨looked, unread, page, hlooks, hcases⟩ :=
    listFailed_succ c queue limit others hsize i k out cursor
  obtain ⟨e, _, heq⟩ | ⟨jobs, -, ⟨-, _, heq⟩ | ⟨hmore, heq⟩⟩ := hcases
  · exact ⟨1, _, heq 0⟩
  · exact ⟨1, _, heq 0⟩
  · obtain ⟨hdone, -⟩ := not_or.1 hmore
    obtain ⟨fuel, l, hl⟩ := hnext looked unread page hlooks (by simpa using hdone) _
    exact ⟨fuel + 1, l, (heq fuel).trans hl⟩

/-- **The call ends** once the failed set stops changing. -/
theorem listFailed_ends (hsize : 1 ≤ size) {N : ℕ}
    (hothers : ∀ i ≥ N, ∀ k, (others i k).set .failed = k.set .failed) (i : ℕ) (k : RedisKeys)
    (out : List FailedJob) (cursor : Option (ℤ × String)) :
    ∃ fuel l, listFailed c queue size limit others fuel i k out cursor = some l := by
  -- from the page `N` on, by the members of the failed set and then by the rows ahead of the cursor
  have hstill : ∀ n m i k out cursor, N ≤ i → (k.set .failed).keys.length = n →
      (rowsAhead (k.set .failed) cursor).length = m →
      ∃ fuel l, listFailed c queue size limit others fuel i k out cursor = some l := by
    intro n
    induction n using Nat.strongRecOn with
    | ind n ihn =>
      intro m
      induction m using Nat.strongRecOn with
      | ind m ihm =>
        intro i k out cursor hi hn hm
        refine listFailed_ends_of_next hsize fun looked unread page hlooks hmore out' => ?_
        rcases hlooks.progress hmore (hothers i hi _) with hlt | ⟨hle, hlt⟩
        · exact ihn _ (hn ▸ hlt) _ (i + 1) _ out' _ (by omega) rfl rfl
        · rcases hle.lt_or_eq with hless | hsame
          · exact ihn _ (hn ▸ hless) _ (i + 1) _ out' _ (by omega) rfl rfl
          · exact ihm _ (hm ▸ hlt) (i + 1) _ out' _ (by omega) (hsame.trans hn) rfl
  -- before it, page by page
  have hbefore : ∀ d i k out cursor, N ≤ i + d →
      ∃ fuel l, listFailed c queue size limit others fuel i k out cursor = some l := by
    intro d
    induction d with
    | zero => exact fun i k out cursor hi => hstill _ _ i k out cursor hi rfl rfl
    | succ d ih =>
      intro i k out cursor hi
      exact listFailed_ends_of_next hsize fun _ _ _ _ _ _ => ih (i + 1) _ _ _ (by omega)
  exact hbefore N i k out cursor (Nat.le_add_left N i)

end Call

/-- **Listing failed jobs while they change.** For every page size, every failed set and every change
between the pages: no id is listed twice; a limit is kept; a job that stays in the failed set with its
failure time is listed, unless the limit was reached; and the call ends once the failed set stops
changing. -/
theorem failed_listing (c : Codec) (queue : String) {size : ℕ} (hsize : 1 ≤ size) (limit : ℤ)
    (others : ℕ → RedisKeys → RedisKeys) (k : RedisKeys) :
    (∀ fuel l, listFailed c queue size limit others fuel 0 k [] none = some l →
      (ids l.jobs).Nodup ∧ (0 < limit → l.jobs.length ≤ limit) ∧
      (l.err = none → limit ≤ 0 ∨ l.jobs.length < limit → ∀ id s jobID,
        (∀ i k, Stays c id s jobID k → Stays c id s jobID (others i k)) → Stays c id s jobID k →
        jobID ∈ ids l.jobs)) ∧
    ((∃ N, ∀ i ≥ N, ∀ k, (others i k).set .failed = k.set .failed) →
      ∃ fuel l, listFailed c queue size limit others fuel 0 k [] none = some l) := by
  refine ⟨fun fuel l h => ⟨?_, ?_, ?_⟩, ?_⟩
  · exact listFailed_nodup hsize h nodup_nil
  · intro hlimit
    exact listFailed_limit hsize hlimit h hlimit
  · intro hok hlimit id s jobID hothers hstays
    exact listFailed_complete hsize hothers h hok hlimit hstays (.inr (by simp))
  · rintro ⟨N, hothers⟩
    exact listFailed_ends hsize hothers 0 k [] none

/-- Forgetting another job leaves it where it is. -/
theorem Stays.forget {c : Codec} {id jobID other : String} {s : ℤ} {k : RedisKeys}
    (h : Stays c id s jobID k) (hne : id ≠ other) :
    Stays c id s jobID (after (forgetFailedScript other) k) := by
  have hrun := run_forgetFailedScript k other
  split at hrun
  · rw [after_eq hrun]
    have hjob : ((k.zrem .failed other).setJob other .absent).job id = k.job id := by
      simp [setJob, hne]
    refine ⟨?_, ?_, ?_⟩
    · exact (lookup_zrem_ne _ _ _ (by simp [hne])).trans h.failed
    · have halive := h.alive
      unfold RedisKeys.alive at halive ⊢
      rwa [hjob]
    · rw [hjob]
      exact h.record
  · rw [after_eq hrun]
    exact h

/-- Two jobs that failed at the same instant. -/
def twoFailed : RedisKeys :=
  .executed (["x", "y"].flatMap fun id => [.push (sampleText id "mail") 0 id, .reserve 0 1 "r",
    .bury 0 id "r" 0 failureText])

/-- Between the first two pages `y` is forgotten. -/
def forgetsY (i : ℕ) (k : RedisKeys) : RedisKeys :=
  if i = 0 then after (forgetFailedScript "y") k else k

/-- Read in pages of one, the first page's cursor is forgotten; the job that stays is listed. -/
theorem failed_listing_forgotten :
    ∃ l, listFailed sampleCodec "q" 1 0 forgetsY 3 0 twoFailed [] none = some l ∧
      "x" ∈ ids l.jobs ∧ (ids l.jobs).Nodup := by
  have hrun : ((listFailed sampleCodec "q" 1 0 forgetsY 3 0 twoFailed [] none).map fun l =>
      l.err.isNone) = some true := by decide +kernel
  obtain ⟨l, hl, herr⟩ := Option.map_eq_some_iff.1 hrun
  have hothers : ∀ i k, Stays sampleCodec "x" 0 "x" k → Stays sampleCodec "x" 0 "x" (forgetsY i k) := by
    intro i k h
    unfold forgetsY
    split_ifs
    · exact h.forget (by decide)
    · exact h
  have hstays : Stays sampleCodec "x" 0 "x" twoFailed :=
    ⟨by decide, by decide, sampleText "x" "mail", by decide, by decide⟩
  obtain ⟨hnodup, -, hcomplete⟩ :=
    (failed_listing sampleCodec "q" le_rfl 0 forgetsY twoFailed).1 3 l hl
  exact ⟨l, hl, hcomplete (by simpa using herr) (.inl le_rfl) "x" 0 "x" hothers hstays, hnodup⟩

end Gombit.Jobs
