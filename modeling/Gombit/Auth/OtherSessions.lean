import Gombit.Auth.Chains

/-!
# Revoking the other sessions

`revokeOtherSessionsTx` keeps the session that a request was authenticated with and ends all other
ones of the user. The request names a row; the session may have been rotated since, so the walk
`sessionChain` follows the replacements from that row on, for at most `maxChainHops` reads.

* `Rotated`: the row that a number of rotations lead to.
* `exists_head`: every row has a last replacement.
* `sessionChain_eq`: within the bound, the walk finds it and returns rows of its chain.
* `keeps_one_session`: the one active row that is left is that head, or nothing changes.
-/

namespace Gombit.Auth

open Rows List Service

variable {svc : Service} {w w₀ : World} {es : List Event} {rows : List RefreshToken} {db : DB}
  {userID : ℕ} {now : ℤ}

namespace Service

/-- `revokeOtherSessionsTx`. -/
def revokeOtherSessionsTx (plain db : DB) (userID keepID : ℕ) (now : ℤ) : Outcome Unit :=
  match requesterChain plain userID keepID now with
  | .error e => (.error e, db)
  | .ok keep => (.ok (), db.revokeSessionsButTx userID keep now)

/-- The loop of `sessionChain`, with the number of its reads. -/
def chainReads (plain : DB) (userID : ℕ) :
    ℕ → ℕ → List ℕ → Option RefreshToken → (List ℕ × Option RefreshToken) × ℕ
  | 0, _, ids, last => ((ids, last), 0)
  | hops + 1, next, ids, last =>
    match plain.refreshTokens.find? fun r => decide (r.id = next) && decide (r.userID = userID) with
    | none => ((ids, last), 1)
    | some row =>
      match row.replacedBy with
      | none => ((ids, some row), 1)
      | some id =>
        if id ∈ ids then ((ids, some row), 1)
        else
          let walked := chainReads plain userID hops id (ids ++ [id]) (some row)
          (walked.1, walked.2 + 1)

/-- The walk ends: on any table, after at most as many reads as hops are allowed. -/
theorem chainReads_le (plain : DB) (userID hops next : ℕ) (ids : List ℕ) (last : Option RefreshToken) :
    (chainReads plain userID hops next ids last).1 = chainLoop plain userID hops next ids last ∧
      (chainReads plain userID hops next ids last).2 ≤ hops := by
  induction hops generalizing next ids last with
  | zero => exact ⟨rfl, le_rfl⟩
  | succ hops ih =>
    simp only [chainReads, chainLoop]
    cases plain.refreshTokens.find? fun r => decide (r.id = next) && decide (r.userID = userID) with
    | none => exact ⟨rfl, Nat.le_add_left 1 hops⟩
    | some row =>
      dsimp only
      cases row.replacedBy with
      | none => exact ⟨rfl, Nat.le_add_left 1 hops⟩
      | some id =>
        dsimp only
        split
        · exact ⟨rfl, by omega⟩
        · obtain ⟨hfst, hle⟩ := ih id (ids ++ [id]) (some row)
          exact ⟨hfst, by omega⟩

end Service

/-! ## The head of a chain -/

/-- `n` rotations lead from the row `a` to the row `b`. -/
inductive Rotated (rows : List RefreshToken) : ℕ → ℕ → ℕ → Prop
  | refl (a : ℕ) : Rotated rows 0 a a
  | step {n a b c : ℕ} (h : Succ rows a b) (tail : Rotated rows n b c) : Rotated rows (n + 1) a c

theorem Rotated.reflTransGen {n a b : ℕ} (h : Rotated rows n a b) :
    Relation.ReflTransGen (Succ rows) a b := by
  induction h with
  | refl a => exact .refl
  | step h tail ih => exact .head h ih

variable {r head : RefreshToken}

/-- Every row has a last replacement, a row of the same user. -/
theorem exists_head (h : Chained rows) (hr : r ∈ rows) :
    ∃ n, ∃ head ∈ rows, Rotated rows n r.id head.id ∧ head.userID = r.userID ∧
      head.replacedBy = none := by
  obtain ⟨rank, hrank⟩ := h.ranked
  -- the ranks of rows are bounded, and every replacement has a higher one
  obtain ⟨bound, hbound⟩ : ∃ bound, ∀ r ∈ rows, rank r.id < bound := by
    clear hr h hrank
    induction rows with
    | nil => exact ⟨0, by simp⟩
    | cons s rows ih =>
      obtain ⟨bound, hbound⟩ := ih
      refine ⟨max bound (rank s.id + 1), fun r hr => ?_⟩
      rcases mem_cons.1 hr with rfl | hr
      · omega
      · have := hbound r hr
        omega
  generalize hk : bound - rank r.id = k
  induction k using Nat.strongRecOn generalizing r with
  | ind k ih =>
    cases hlink : r.replacedBy with
    | none => exact ⟨0, r, hr, .refl _, rfl, hlink⟩
    | some j =>
      obtain ⟨s, hs, rfl, huser⟩ := h.successor r hr j hlink
      have hlt := hrank r hr s.id hlink
      have hle := hbound s hs
      obtain ⟨n, head, hhead, hpath, hhuser, hnone⟩ := ih (bound - rank s.id) (by omega) hs rfl
      exact ⟨n + 1, head, hhead, .step ⟨r, hr, rfl, hlink⟩ hpath, hhuser.trans huser, hnone⟩

/-! ## The walk -/

/-- The read of a user's row. -/
theorem find_row (hkeyed : Keyed RefreshToken.id rows) (hr : r ∈ rows) :
    (rows.find? fun r' => decide (r'.id = r.id) && decide (r'.userID = r.userID)) = some r := by
  obtain ⟨r', hfound⟩ : ∃ r', (rows.find? fun r' =>
      decide (r'.id = r.id) && decide (r'.userID = r.userID)) = some r' := by
    rw [← Option.isSome_iff_exists, List.find?_isSome]
    exact ⟨r, hr, by simp⟩
  have hid : r'.id = r.id := by
    have := List.find?_some hfound
    simp only [Bool.and_eq_true, decide_eq_true_eq] at this
    exact this.1
  rw [hfound, hkeyed.eq (mem_of_find?_eq_some hfound) hr hid]

section Walk

variable (hkeyed : Keyed RefreshToken.id db.refreshTokens) (hchained : Chained db.refreshTokens)
  {n : ℕ} (hr : r ∈ db.refreshTokens) (huser : r.userID = userID)
  (hpath : Rotated db.refreshTokens n r.id head.id) (hhead : head ∈ db.refreshTokens)
  (hnone : head.replacedBy = none)

include hkeyed hchained hr huser hpath hhead hnone

/-- The walk reaches the head when it may take enough hops, and returns rows of the chain only. -/
theorem chainLoop_eq {hops : ℕ} (hn : n < hops) (ids : List ℕ) (last : Option RefreshToken)
    (hids : ∀ id ∈ ids, Relation.ReflTransGen (Succ db.refreshTokens) id r.id) :
    ∃ more, Service.chainLoop db userID hops r.id ids last = (ids ++ more, some head) ∧
      head.id ∈ r.id :: more ∧
      ∀ id ∈ more, Relation.ReflTransGen (Succ db.refreshTokens) r.id id := by
  induction hops generalizing n r ids last with
  | zero => omega
  | succ hops ih =>
    have hfind := find_row hkeyed hr
    rw [huser] at hfind
    cases hlink : r.replacedBy with
    | none =>
      have heq : r = head := by
        generalize hj : head.id = j at hpath
        cases hpath with
        | refl => exact hkeyed.eq hr hhead hj.symm
        | step hsucc =>
          obtain ⟨r', hr', hid, hlink'⟩ := hsucc
          rw [hkeyed.eq hr' hr hid, hlink] at hlink'
          cases hlink'
      exact ⟨[], by simp [chainLoop, hfind, hlink, ← heq], by simp [heq], by simp⟩
    | some j =>
      obtain ⟨s, hs, rfl, hsuser⟩ := hchained.successor r hr j hlink
      have hsucc : Succ db.refreshTokens r.id s.id := ⟨r, hr, rfl, hlink⟩
      have hnotin : s.id ∉ ids := fun hmem =>
        hchained.acyclic _ (Relation.TransGen.tail' (hids s.id hmem) hsucc)
      have hloop : chainLoop db userID (hops + 1) r.id ids last =
          chainLoop db userID hops s.id (ids ++ [s.id]) (some r) := by
        simp [chainLoop, hfind, hlink, hnotin]
      -- one rotation less leads from the replacement to the head
      obtain ⟨m, hpath', hm⟩ : ∃ m, Rotated db.refreshTokens m s.id head.id ∧ m < hops := by
        generalize hi : r.id = i at hpath
        generalize hj : head.id = j at hpath
        cases hpath with
        | refl =>
          rw [hkeyed.eq hhead hr (hj.trans hi.symm), hlink] at hnone
          cases hnone
        | @step m _ b _ hsucc' tail =>
          have hb : b = s.id := succ_rightUnique hkeyed (hi ▸ hsucc') hsucc
          exact ⟨m, hb ▸ tail, by omega⟩
      have hids' : ∀ id ∈ ids ++ [s.id], Relation.ReflTransGen (Succ db.refreshTokens) id s.id := by
        intro id hid
        rcases mem_append.1 hid with hid | hid
        · exact (hids id hid).tail hsucc
        · rw [mem_singleton.1 hid]
      obtain ⟨more, hmore, hin, hreach⟩ :=
        ih hs (hsuser.trans huser) hpath' hm (ids ++ [s.id]) (some r) hids'
      refine ⟨s.id :: more, ?_, mem_cons_of_mem _ hin, fun id hid => ?_⟩
      · rw [hloop, hmore, append_assoc, singleton_append]
      · rcases mem_cons.1 hid with rfl | hid
        · exact .single hsucc
        · exact .head hsucc (hreach id hid)

/-- The walk from a row of the user finds the head within 999 rotations. -/
theorem sessionChain_eq (hn : n ≤ 999) :
    ∃ ids, Service.sessionChain db userID r.id = (ids, some head) ∧ head.id ∈ ids ∧
      ∀ id ∈ ids, Relation.ReflTransGen (Succ db.refreshTokens) r.id id := by
  obtain ⟨more, hloop, hin, hmore⟩ := chainLoop_eq hkeyed hchained hr huser hpath hhead hnone
    (show n < maxChainHops by simp only [maxChainHops]; omega) [r.id] none
    (fun id hid => by rw [mem_singleton.1 hid])
  refine ⟨_, hloop, hin, fun id hid => ?_⟩
  rcases mem_append.1 hid with hid | hid
  · rw [mem_singleton.1 hid]
  · exact hmore id hid

end Walk

/-- The walk from what is no row of the user finds nothing. -/
theorem sessionChain_foreign {keepID : ℕ}
    (h : ∀ r ∈ db.refreshTokens, r.id = keepID → r.userID ≠ userID) :
    Service.sessionChain db userID keepID = ([keepID], none) := by
  have hfind : (db.refreshTokens.find? fun r =>
      decide (r.id = keepID) && decide (r.userID = userID)) = none := by
    rw [List.find?_eq_none]
    intro r hr
    simp only [Bool.and_eq_true, decide_eq_true_eq, not_and]
    exact h r hr
  rw [sessionChain, maxChainHops, chainLoop, hfind]

/-! ## The session that is kept -/

/-- The rows after the user's sessions but one were revoked: of the user's, `head` is the only active
one, as it was; the rows of others are untouched. -/
structure KeptOnly (db db' : DB) (userID : ℕ) (head : RefreshToken) : Prop where
  kept : head ∈ db'.refreshTokens
  active : head.active = true
  only : ∀ r ∈ db'.refreshTokens, r.userID = userID → r.active = true → r = head
  others : ∀ r, r.userID ≠ userID → (r ∈ db'.refreshTokens ↔ r ∈ db.refreshTokens)

/-- Revoking the rows outside a list of one chain's rows leaves the active row of the chain. -/
theorem keptOnly_revokeSessionsButTx (hkeyed : Keyed RefreshToken.id db.refreshTokens)
    (hheads : HeadsActive db.refreshTokens) {ids : List ℕ} (hhead : head ∈ db.refreshTokens)
    (hactive : head.active = true)
    (hpath : Relation.ReflTransGen (Succ db.refreshTokens) r.id head.id) (hmem : head.id ∈ ids)
    (hids : ∀ id ∈ ids, Relation.ReflTransGen (Succ db.refreshTokens) r.id id) :
    KeptOnly db (db.revokeSessionsButTx userID ids now) userID head := by
  have hrow : ∀ r', r' ∈ (db.revokeSessionsButTx userID ids now).refreshTokens ↔
      ∃ s ∈ db.refreshTokens, (if (decide (s.userID = userID) && decide (s.id ∉ ids)) && s.active
        then { s with revokedAt := some now } else s) = r' := fun r' => mem_updateWhere
  refine ⟨(hrow head).2 ⟨head, hhead, by simp [hmem]⟩, hactive, ?_, ?_⟩
  · intro r' hr' huser hact
    obtain ⟨s, hs, rfl⟩ := (hrow r').1 hr'
    split at hact
    · cases hact
    · rename_i hnot
      rw [if_neg hnot] at huser ⊢
      have hin : s.id ∈ ids := by
        by_contra hout
        exact hnot (by simp [huser, hout, hact])
      exact active_unique_in_chain hheads hkeyed hs hhead hact hactive (hids _ hin) hpath
  · intro r' huser
    rw [hrow]
    constructor
    · rintro ⟨s, hs, rfl⟩
      split at huser
      · rename_i hp
        simp only [Bool.and_eq_true, decide_eq_true_eq] at hp
        exact absurd hp.1.1 huser
      · rename_i hnot
        rwa [if_neg hnot]
    · intro hr'
      exact ⟨r', hr', by simp [huser]⟩

/-- **Revoking the other sessions keeps exactly one.** In every state that requests lead to, for every
row of the user that a request may name, its chain has a head; after at most 999 rotations since,
the head is the one active row of the user that is left, if it is active and unexpired, and otherwise
nothing changes. A row that is not the user's changes nothing either. And on any table at all the walk
along the chain ends after at most `maxChainHops` reads. -/
theorem keeps_one_session (svc : Service) (w₀ w : World) (es : List Event) (h₀ : w₀.Init)
    (h : Run svc.Step w₀ es w) (userID keepID : ℕ) (now : ℤ) :
    (∀ r ∈ w.db.refreshTokens, r.id = keepID → r.userID = userID →
      ∃ n, ∃ head ∈ w.db.refreshTokens, Rotated w.db.refreshTokens n keepID head.id ∧
        head.replacedBy = none ∧ (n ≤ 999 →
        (head.active = true ∧ now < head.expiresAt →
          ∃ db', Service.revokeOtherSessionsTx w.db w.db userID keepID now = (.ok (), db') ∧
            KeptOnly w.db db' userID head) ∧
        (¬ (head.active = true ∧ now < head.expiresAt) →
          Service.revokeOtherSessionsTx w.db w.db userID keepID now = (.error .sessionEnded, w.db)))) ∧
    ((∀ r ∈ w.db.refreshTokens, r.id = keepID → r.userID ≠ userID) →
      Service.revokeOtherSessionsTx w.db w.db userID keepID now = (.error .sessionEnded, w.db)) ∧
    ∀ (db : DB) (userID fromID : ℕ), ∃ reads ≤ Service.maxChainHops,
      Service.chainReads db userID Service.maxChainHops fromID [fromID] none =
        (Service.sessionChain db userID fromID, reads) := by
  have hsound := sound_run h₀ h
  have hchained := chained_run h₀ h
  refine ⟨?_, ?_, ?_⟩
  · rintro r hr rfl rfl
    obtain ⟨n, head, hhead, hpath, huser, hnone⟩ := exists_head hchained hr
    refine ⟨n, head, hhead, hpath, hnone, fun hn => ?_⟩
    obtain ⟨ids, hwalk, hin, hids⟩ := sessionChain_eq hsound.keyed hchained hr rfl hpath hhead hnone hn
    have hended : (head.revokedAt.isSome = true ∨ head.expiresAt ≤ now) ↔
        ¬ (head.active = true ∧ now < head.expiresAt) := by
      rw [RefreshToken.active, not_and_or, not_lt]
      cases head.revokedAt <;> simp
    constructor
    · intro halive
      have hchain : requesterChain w.db r.userID r.id now = .ok ids := by
        simp only [requesterChain, hwalk, hended, not_not.2 halive, if_false]
      refine ⟨_, by rw [revokeOtherSessionsTx, hchain], ?_⟩
      exact keptOnly_revokeSessionsButTx hsound.keyed hsound.heads hhead halive.1
        hpath.reflTransGen hin hids
    · intro hdead
      have hchain : requesterChain w.db r.userID r.id now = .error .sessionEnded := by
        simp only [requesterChain, hwalk, hended, hdead, not_false_iff, if_true]
      rw [revokeOtherSessionsTx, hchain]
  · intro hforeign
    have hchain : requesterChain w.db userID keepID now = .error .sessionEnded := by
      rw [requesterChain, sessionChain_foreign hforeign]
    rw [revokeOtherSessionsTx, hchain]
  · intro db userID fromID
    obtain ⟨hfst, hle⟩ := chainReads_le db userID maxChainHops fromID [fromID] none
    exact ⟨_, hle, Prod.ext hfst rfl⟩

/-- A login of the sample user at the instant 0. -/
def sampleRow (id : ℕ) (hash : String) : RefreshToken := sampleService.newRow sampleUser 0 ⟨id, hash⟩

/-- After two logins and a rotation of the first, a request that was authenticated before the
rotation keeps the rotated session and revokes the other. -/
theorem keeps_one_session_rotated :
    ∃ w db', Run sampleService.Step sampleWorld
        [⟨.startSession sampleUser ⟨1, "first"⟩, none⟩, ⟨.startSession sampleUser ⟨2, "other"⟩, none⟩,
          ⟨.rotateRefreshOnce "first" ⟨3, "second"⟩, none⟩] w ∧
      Service.revokeOtherSessionsTx w.db w.db 1 1 5 = (.ok (), db') ∧
      { sampleRow 2 "other" with revokedAt := some 5 } ∈ db'.refreshTokens ∧
      KeptOnly w.db db' 1 (sampleRow 3 "second") := by
  obtain ⟨w, hrun, hdb⟩ : ∃ w, Run sampleService.Step sampleWorld
      [⟨.startSession sampleUser ⟨1, "first"⟩, none⟩, ⟨.startSession sampleUser ⟨2, "other"⟩, none⟩,
        ⟨.rotateRefreshOnce "first" ⟨3, "second"⟩, none⟩] w ∧
      w.db = ⟨[sampleUser], [{ sampleRow 1 "first" with revokedAt := some 0, replacedBy := some 3 },
        sampleRow 2 "other", sampleRow 3 "second"], []⟩ :=
    ⟨_, .cons (.startSession 0 sampleWorld.saw_db (by decide))
      (.cons (.startSession 0 (World.saw_db _) (by decide))
        (.single (.rotateRefreshOnce 0 (World.saw_db _)))), by decide⟩
  obtain ⟨n, head, hhead, hpath, hnone, hkeep⟩ :=
    (keeps_one_session sampleService sampleWorld w _ sampleWorld_init hrun 1 1 5).1
      _ (by rw [hdb]; exact List.mem_cons_self) rfl rfl
  have hsucc : ∀ a b, Succ w.db.refreshTokens a b → a = 1 ∧ b = 3 := by
    rw [hdb]
    rintro a b ⟨r, hr, rfl, hb⟩
    simp only [List.mem_cons, List.not_mem_nil, or_false] at hr
    obtain rfl | rfl | rfl := hr
    · exact ⟨rfl, (Option.some.inj hb).symm⟩
    · cases hb
    · cases hb
  -- the one rotation leads from the first row to the third
  obtain ⟨hn, hid⟩ : n ≤ 999 ∧ (head.id = 1 ∨ head.id = 3) := by
    generalize head.id = id at hpath
    cases hpath with
    | refl => exact ⟨by decide, .inl rfl⟩
    | step h tail =>
      obtain ⟨-, rfl⟩ := hsucc _ _ h
      cases tail with
      | refl => exact ⟨by decide, .inr rfl⟩
      | step h' _ => exact absurd (hsucc _ _ h').1 (by decide)
  obtain rfl : head = sampleRow 3 "second" := by
    rw [hdb] at hhead
    simp only [List.mem_cons, List.not_mem_nil, or_false] at hhead
    obtain rfl | rfl | rfl := hhead
    · cases hnone
    · exact absurd hid (by decide)
    · rfl
  obtain ⟨db', hrevoke, hkept⟩ := (hkeep hn).1 ⟨rfl, by decide⟩
  refine ⟨w, db', hrun, hrevoke, ?_, hkept⟩
  rw [hdb] at hrevoke
  obtain rfl : _ = db' := congrArg Prod.snd hrevoke
  decide

end Gombit.Auth
