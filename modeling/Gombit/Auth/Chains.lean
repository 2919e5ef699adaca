import Gombit.Auth.Transitions
import Mathlib.Logic.Relation

/-!
# Refresh tokens never fork

The rows of a session form a chain: each is replaced by at most one, replaces at most one, and the
chain does not close (`Chained`). Rotations extend a chain at its one active row, and nothing else
adds to it, however the requests interleave.

* `sound_run`: every state a plain read can see has evolved into the present one.
* `chained_run`: the rows form chains.
* `exchanges_run`, `active_run`: a token is exchanged once, and there are no more active rows than
  logins.
* `refresh_chains`: the results about whole histories put together.
-/

namespace Gombit.Auth

open Rows List

variable {svc : Service} {db : DB} {w w' w₀ : World} {e : Event} {es : List Event}
  {rows : List RefreshToken}

/-! ## Rows evolve -/

theorem Later.revoke (r : RefreshToken) (now : ℤ) (h : r.active = true) :
    r.Later { r with revokedAt := some now } where
  id := rfl
  userID := rfl
  tokenHash := rfl
  expiresAt := rfl
  revokedAt hne := by simp_all [RefreshToken.active]
  replacedBy _ := rfl

theorem evolves_revokeWhere (db : DB) (p : RefreshToken → Bool) (now : ℤ) :
    Evolves RefreshToken.Later db.refreshTokens (db.revokeWhere p now).refreshTokens := by
  refine evolves_updateWhere RefreshToken.Later.refl fun r _ hp => ?_
  exact Later.revoke r now (by simp_all)

/-- An active row has no successor: what a rotation relies on. -/
def HeadsActive (rows : List RefreshToken) : Prop :=
  ∀ r ∈ rows, r.replacedBy ≠ none → r.revokedAt ≠ none

theorem Later.rotate (r : RefreshToken) (now : ℤ) (next : ℕ) (h : r.active = true)
    (hhead : r.replacedBy ≠ none → r.revokedAt ≠ none) : r.Later (r.rotate now next) where
  id := rfl
  userID := rfl
  tokenHash := rfl
  expiresAt := rfl
  revokedAt hne := by simp_all [RefreshToken.active]
  replacedBy hne := by
    have := hhead hne
    simp_all [RefreshToken.active]

theorem RowsStep.headsActive (h : RowsStep svc db e rows) (hr : HeadsActive db.refreshTokens) :
    HeadsActive rows := by
  cases h with
  | revoked hnot p now =>
    intro r' hr'
    obtain ⟨r, hmem, rfl⟩ := mem_updateWhere.1 hr'
    split
    · simp
    · exact hr r hmem
  | started now hlocked hactive hhash hnew =>
    intro r' hr'
    rcases mem_append.1 hr' with hr' | hr'
    · exact hr r' hr'
    · rw [mem_singleton.1 hr']
      simp [Service.newRow]
  | rotated now hrow hactive huser henabled hnew =>
    intro r' hr'
    rcases mem_append.1 hr' with hr' | hr'
    · obtain ⟨r, hmem, rfl⟩ := mem_updateWhere.1 hr'
      split
      · simp [RefreshToken.rotate]
      · exact hr r hmem
    · rw [mem_singleton.1 hr']
      simp [Service.newRow]

/-- A rotation changes no other column. -/
theorem map_updateWhere_rotate {α : Type} {g : RefreshToken → α}
    (h : ∀ r t n, g (r.rotate t n) = g r) (p : RefreshToken → Bool) (now : ℤ) (next : ℕ)
    (rows : List RefreshToken) :
    (updateWhere p (fun r => r.rotate now next) rows).map g = rows.map g :=
  map_updateWhere fun r => h r now next

/-- Each row is still there after a request. -/
theorem RowsStep.later (h : RowsStep svc db e rows)
    (hkeyed : Keyed RefreshToken.id db.refreshTokens) (hheads : HeadsActive db.refreshTokens) :
    Evolves RefreshToken.Later db.refreshTokens rows := by
  cases h with
  | revoked hnot p now => exact evolves_revokeWhere db p now
  | started now hlocked hactive hhash hnew => exact (Evolves.refl RefreshToken.Later.refl _).append _
  | @rotated row user now draw hrow hactive huser henabled hnew =>
    refine (evolves_updateWhere RefreshToken.Later.refl fun r hr hp => ?_).append _
    have : r = row := hkeyed.eq hr hrow (by simpa using hp)
    subst this
    exact Later.rotate r now draw.id hactive (hheads r hr)

theorem RowsStep.keyed (h : RowsStep svc db e rows)
    (hkeyed : Keyed RefreshToken.id db.refreshTokens) : Keyed RefreshToken.id rows := by
  cases h with
  | revoked hnot p now => exact hkeyed.updateWhere fun _ => rfl
  | started now hlocked hactive hhash hnew => exact hkeyed.append fun r hr => hnew.id_ne hr
  | rotated now hrow hactive huser henabled hnew =>
    refine Keyed.append (hkeyed.updateWhere fun _ => rfl) fun r hr heq => hnew.id ?_
    rw [← map_updateWhere_rotate fun _ _ _ => rfl]
    exact mem_map.2 ⟨r, hr, heq⟩

variable {r' : RefreshToken}

theorem nodup_append_hash {draw : Draw} (h : (rows.map RefreshToken.tokenHash).Nodup)
    (hnew : draw.tokenHash ∉ rows.map RefreshToken.tokenHash)
    (hr' : r'.tokenHash = draw.tokenHash) : ((rows ++ [r']).map RefreshToken.tokenHash).Nodup := by
  rw [map_append, map_singleton, nodup_append]
  refine ⟨h, nodup_singleton _, fun a ha b hb heq => hnew ?_⟩
  rw [← hr', ← mem_singleton.1 hb, ← heq]
  exact ha

theorem RowsStep.hashes (h : RowsStep svc db e rows)
    (hhashes : (db.refreshTokens.map RefreshToken.tokenHash).Nodup) :
    (rows.map RefreshToken.tokenHash).Nodup := by
  cases h with
  | revoked hnot p now =>
    rw [map_revokeWhere fun _ _ => rfl]
    exact hhashes
  | started now hlocked hactive hhash hnew => exact nodup_append_hash hhashes hnew.tokenHash rfl
  | rotated now hrow hactive huser henabled hnew =>
    refine nodup_append_hash ?_ ?_ rfl
    · rw [map_updateWhere_rotate fun _ _ _ => rfl]
      exact hhashes
    · rw [map_updateWhere_rotate fun _ _ _ => rfl]
      exact hnew.tokenHash

theorem Service.Step.commit (h : svc.Step w e w') : w' = w.commit w'.db := by
  cases h <;> rfl

/-- The rows are keyed, and every state a plain read can see has evolved into the present one. -/
structure World.Sound (w : World) : Prop extends w.Evolved where
  heads : HeadsActive w.db.refreshTokens

theorem World.Init.sound (h : w.Init) : w.Sound where
  keyed := by simp [h.refreshTokens, Keyed]
  hashes := by simp [h.refreshTokens]
  later old hold := by
    simp only [World.Saw, h.past, mem_singleton] at hold
    rw [hold]
    exact Evolves.refl RefreshToken.Later.refl _
  heads := by simp [HeadsActive, h.refreshTokens]

theorem World.Sound.step (hw : w.Sound) (h : svc.Step w e w') : w'.Sound := by
  have hrows := h.rows hw.toEvolved
  have hlater := hrows.later hw.keyed hw.heads
  refine ⟨⟨hrows.keyed hw.keyed, hrows.hashes hw.hashes, fun old hold => ?_⟩,
    hrows.headsActive hw.heads⟩
  rw [h.commit, World.saw_commit] at hold
  rcases hold with rfl | hold
  · exact Evolves.refl RefreshToken.Later.refl _
  · exact Evolves.trans (R := RefreshToken.Later) RefreshToken.Later.trans (hw.later old hold) hlater

theorem sound_run (h₀ : w₀.Init) (h : Run svc.Step w₀ es w) : w.Sound :=
  h.preserves (fun _ _ _ hstep hw => hw.step hstep) h₀.sound

/-- Every row is still there after a run: what is set in it stays set. -/
theorem World.Sound.later_run (hw : w.Sound) (h : Run svc.Step w es w') :
    Evolves RefreshToken.Later w.db.refreshTokens w'.db.refreshTokens := by
  have hsaw : w'.Sound ∧ w'.Saw w.db :=
    h.preserves (I := fun w' => w'.Sound ∧ w'.Saw w.db) (fun s e s' hstep ⟨hs, hsaw⟩ =>
      ⟨hs.step hstep, by rw [hstep.commit, World.saw_commit]; exact .inr hsaw⟩) ⟨hw, w.saw_db⟩
  exact hsaw.1.later _ hsaw.2

/-! ## Chains -/

/-- `b` replaces `a`. -/
def Succ (rows : List RefreshToken) (a b : ℕ) : Prop :=
  ∃ r ∈ rows, r.id = a ∧ r.replacedBy = some b

/-- The rows form chains. -/
structure Chained (rows : List RefreshToken) : Prop where
  /-- A row's replacement is a row of the same user. -/
  successor : ∀ r ∈ rows, ∀ j, r.replacedBy = some j → ∃ s ∈ rows, s.id = j ∧ s.userID = r.userID
  /-- A row replaces at most one. -/
  predecessor : ∀ r ∈ rows, ∀ r' ∈ rows, ∀ j, r.replacedBy = some j → r'.replacedBy = some j → r = r'
  /-- A row's replacement is younger. -/
  ranked : ∃ rank : ℕ → ℕ, ∀ r ∈ rows, ∀ j, r.replacedBy = some j → rank r.id < rank j

variable {rows' : List RefreshToken} {r : RefreshToken} {hash : String}

/-- The rows an update leaves, when it changes no link. -/
theorem Chained.of_links (h : Chained rows)
    (hrows : ∀ r' ∈ rows', ∃ r ∈ rows, r'.id = r.id ∧ r'.userID = r.userID ∧ r'.replacedBy = r.replacedBy)
    (hrows' : Evolves RefreshToken.Later rows rows') (hkeyed : Keyed RefreshToken.id rows') :
    Chained rows' where
  successor r' hr' j hj := by
    obtain ⟨r, hr, -, huser, hlink⟩ := hrows r' hr'
    obtain ⟨s, hs, hsid, hsuser⟩ := h.successor r hr j (hlink ▸ hj)
    obtain ⟨s', hs', hlater⟩ := hrows' s hs
    exact ⟨s', hs', hlater.id.trans hsid, hlater.userID.trans (hsuser.trans huser.symm)⟩
  predecessor r' hr' t' ht' j hj hj' := by
    obtain ⟨r, hr, hid, -, hlink⟩ := hrows r' hr'
    obtain ⟨t, ht, hid', -, hlink'⟩ := hrows t' ht'
    have heq := h.predecessor r hr t ht j (hlink ▸ hj) (hlink' ▸ hj')
    exact hkeyed.eq hr' ht' (hid.trans (heq ▸ hid'.symm))
  ranked := by
    obtain ⟨rank, hrank⟩ := h.ranked
    refine ⟨rank, fun r' hr' j hj => ?_⟩
    obtain ⟨r, hr, hid, -, hlink⟩ := hrows r' hr'
    rw [hid]
    exact hrank r hr j (hlink ▸ hj)

/-- A new row that replaces none. -/
theorem Chained.started (h : Chained rows) (hlink : r'.replacedBy = none) :
    Chained (rows ++ [r']) where
  successor r hr j hj := by
    rcases mem_append.1 hr with hr | hr
    · obtain ⟨s, hs, hsid, hsuser⟩ := h.successor r hr j hj
      exact ⟨s, mem_append_left _ hs, hsid, hsuser⟩
    · simp [mem_singleton.1 hr, hlink] at hj
  predecessor r hr t ht j hj hj' := by
    rcases mem_append.1 hr with hr | hr
    · rcases mem_append.1 ht with ht | ht
      · exact h.predecessor r hr t ht j hj hj'
      · simp [mem_singleton.1 ht, hlink] at hj'
    · simp [mem_singleton.1 hr, hlink] at hj
  ranked := by
    obtain ⟨rank, hrank⟩ := h.ranked
    refine ⟨rank, fun r hr j hj => ?_⟩
    rcases mem_append.1 hr with hr | hr
    · exact hrank r hr j hj
    · simp [mem_singleton.1 hr, hlink] at hj

/-- The rows after a rotation: the old ones with their links, the row that was swapped, the new
row. -/
theorem mem_rotated {row new : RefreshToken} {now : ℤ} {next : ℕ}
    (hkeyed : Keyed RefreshToken.id rows) (hrow : row ∈ rows)
    (h : r' ∈ updateWhere (fun r => decide (r.id = row.id)) (fun r => r.rotate now next) rows ++
      [new]) : (r' ∈ rows ∧ r'.id ≠ row.id) ∨ r' = row.rotate now next ∨ r' = new := by
  rcases mem_append.1 h with h | h
  · obtain ⟨r, hr, rfl⟩ := mem_updateWhere.1 h
    by_cases hid : r.id = row.id
    · rw [if_pos (by simpa using hid), hkeyed.eq hr hrow hid]
      exact .inr (.inl rfl)
    · rw [if_neg (by simpa using hid)]
      exact .inl ⟨hr, hid⟩
  · exact .inr (.inr (mem_singleton.1 h))

/-- A rotation links the row it swaps to the new row. -/
theorem Chained.rotated {row : RefreshToken} {now : ℤ} (h : Chained rows) (new : RefreshToken)
    (hkeyed : Keyed RefreshToken.id rows) (hheads : HeadsActive rows) (hrow : row ∈ rows)
    (hactive : row.active = true) (hlink : new.replacedBy = none) (huser : new.userID = row.userID)
    (hnew : ∀ r ∈ rows, r.id ≠ new.id) :
    Chained (updateWhere (fun r => decide (r.id = row.id)) (fun r => r.rotate now new.id) rows ++
      [new]) := by
  have hnone : row.replacedBy = none := by
    by_contra hne
    have := hheads row hrow hne
    simp_all [RefreshToken.active]
  -- no row linked to the new key before: a link leads to a row
  have hfresh : ∀ r ∈ rows, r.replacedBy ≠ some new.id := by
    intro r hr hj
    obtain ⟨s, hs, hsid, -⟩ := h.successor r hr _ hj
    exact hnew s hs hsid
  have hlater : Evolves RefreshToken.Later rows
      (updateWhere (fun r => decide (r.id = row.id)) (fun r => r.rotate now new.id) rows ++
        [new]) := by
    refine (evolves_updateWhere RefreshToken.Later.refl fun r hr hp => ?_).append _
    have : r = row := hkeyed.eq hr hrow (by simpa using hp)
    subst this
    exact Later.rotate r now new.id hactive (hheads r hr)
  refine ⟨fun r hr j hj => ?_, fun r hr t ht j hj hj' => ?_, ?_⟩
  · rcases mem_rotated hkeyed hrow hr with ⟨hr, -⟩ | rfl | rfl
    · obtain ⟨s, hs, hsid, hsuser⟩ := h.successor r hr j hj
      obtain ⟨s', hs', hl⟩ := hlater s hs
      exact ⟨s', hs', hl.id.trans hsid, hl.userID.trans hsuser⟩
    · refine ⟨new, mem_append_right _ (mem_singleton_self _), ?_, huser⟩
      simpa [RefreshToken.rotate] using hj
    · simp [hlink] at hj
  · rcases mem_rotated hkeyed hrow hr with ⟨hr, hne⟩ | rfl | rfl
    · rcases mem_rotated hkeyed hrow ht with ⟨ht, -⟩ | rfl | rfl
      · exact h.predecessor r hr t ht j hj hj'
      · simp only [RefreshToken.rotate, Option.some.injEq] at hj'
        exact absurd (hj' ▸ hj) (hfresh r hr)
      · simp [hlink] at hj'
    · rcases mem_rotated hkeyed hrow ht with ⟨ht, -⟩ | rfl | rfl
      · simp only [RefreshToken.rotate, Option.some.injEq] at hj
        exact absurd (hj ▸ hj') (hfresh t ht)
      · rfl
      · simp [hlink] at hj'
    · simp [hlink] at hj
  · obtain ⟨rank, hrank⟩ := h.ranked
    refine ⟨Function.update rank new.id (rank row.id + 1), fun r hr j hj => ?_⟩
    rcases mem_rotated hkeyed hrow hr with ⟨hr, -⟩ | rfl | rfl
    · have hj' : j ≠ new.id := fun heq => hfresh r hr (heq ▸ hj)
      rw [Function.update_of_ne (hnew r hr), Function.update_of_ne hj']
      exact hrank r hr j hj
    · simp only [RefreshToken.rotate, Option.some.injEq] at hj ⊢
      rw [← hj, Function.update_self, Function.update_of_ne (hnew row hrow)]
      exact Nat.lt_succ_self _
    · simp [hlink] at hj

theorem lockUserTx_id {id : ℕ} {u : User} (h : db.lockUserTx id = some u) : u.id = id :=
  (mem_of_byKey h).2

theorem RowsStep.chained (h : RowsStep svc db e rows)
    (hkeyed : Keyed RefreshToken.id db.refreshTokens) (hheads : HeadsActive db.refreshTokens)
    (hchained : Chained db.refreshTokens) : Chained rows := by
  cases h with
  | revoked hnot p now =>
    refine hchained.of_links (fun r' hr' => ?_) (evolves_revokeWhere db p now)
      (hkeyed.updateWhere fun _ => rfl)
    obtain ⟨r, hr, rfl⟩ := mem_updateWhere.1 hr'
    refine ⟨r, hr, ?_⟩
    split <;> simp
  | started now hlocked hactive hhash hnew => exact hchained.started rfl
  | @rotated row user now draw hrow hactive huser henabled hnew =>
    exact hchained.rotated (svc.newRow user now draw) hkeyed hheads hrow hactive rfl
      (lockUserTx_id huser) fun r hr => hnew.id_ne hr

theorem chained_run (h₀ : w₀.Init) (h : Run svc.Step w₀ es w) : Chained w.db.refreshTokens := by
  have hboth : w.Sound ∧ Chained w.db.refreshTokens := by
    refine h.preserves (I := fun w => w.Sound ∧ Chained w.db.refreshTokens) ?_ ⟨h₀.sound, ?_⟩
    · intro s e s' hstep ⟨hs, hc⟩
      exact ⟨hs.step hstep, (hstep.rows hs.toEvolved).chained hs.keyed hs.heads hc⟩
    · rw [h₀.refreshTokens]
      exact ⟨by simp, by simp, ⟨id, by simp⟩⟩
  exact hboth.2

/-! ## What the chains give -/

theorem Chained.succ_left_unique (h : Chained rows) {a a' b : ℕ} (ha : Succ rows a b)
    (ha' : Succ rows a' b) : a = a' := by
  obtain ⟨r, hr, rfl, hlink⟩ := ha
  obtain ⟨r', hr', rfl, hlink'⟩ := ha'
  rw [h.predecessor r hr r' hr' b hlink hlink']

theorem succ_rightUnique (h : Keyed RefreshToken.id rows) : Relator.RightUnique (Succ rows) := by
  intro a b b' hb hb'
  obtain ⟨r, hr, hid, hlink⟩ := hb
  obtain ⟨r', hr', hid', hlink'⟩ := hb'
  have heq : r = r' := h.eq hr hr' (hid.trans hid'.symm)
  subst heq
  exact Option.some.inj (hlink.symm.trans hlink')

theorem Chained.acyclic (h : Chained rows) (a : ℕ) : ¬ Relation.TransGen (Succ rows) a a := by
  obtain ⟨rank, hrank⟩ := h.ranked
  have hlt : ∀ {b c}, Relation.TransGen (Succ rows) b c → rank b < rank c := by
    intro b c hbc
    induction hbc with
    | single hsucc =>
      obtain ⟨r, hr, rfl, hlink⟩ := hsucc
      exact hrank r hr _ hlink
    | tail _ hsucc ih =>
      obtain ⟨r, hr, rfl, hlink⟩ := hsucc
      exact ih.trans (hrank r hr _ hlink)
  exact fun haa => lt_irrefl _ (hlt haa)

/-- An active row is the last of its chain. -/
theorem eq_of_active_reaches (hheads : HeadsActive rows) (hkeyed : Keyed RefreshToken.id rows)
    {b : ℕ} (hr : r ∈ rows) (hactive : r.active = true)
    (h : Relation.ReflTransGen (Succ rows) r.id b) : r.id = b := by
  rcases h.cases_head with heq | ⟨c, ⟨r', hr', hid, hlink⟩, -⟩
  · exact heq
  · have heq : r' = r := hkeyed.eq hr' hr hid
    subst heq
    have := hheads r' hr (by simp [hlink])
    simp_all [RefreshToken.active]

theorem active_unique_in_chain (hheads : HeadsActive rows) (hkeyed : Keyed RefreshToken.id rows)
    {a : ℕ} (hr : r ∈ rows) (hr' : r' ∈ rows) (hactive : r.active = true)
    (hactive' : r'.active = true) (h : Relation.ReflTransGen (Succ rows) a r.id)
    (h' : Relation.ReflTransGen (Succ rows) a r'.id) : r = r' := by
  refine hkeyed.eq hr hr' ?_
  rcases Relation.ReflTransGen.total_of_right_unique (succ_rightUnique hkeyed) h h' with hrr' | hr'r
  · exact eq_of_active_reaches hheads hkeyed hr hactive hrr'
  · exact (eq_of_active_reaches hheads hkeyed hr' hactive' hr'r).symm

/-! ## Histories -/

/-- A request that exchanged the token for a new pair. -/
def Event.exchanges (hash : String) : Event → Bool
  | ⟨.rotateRefreshOnce h _, none⟩ => decide (h = hash)
  | _ => false

/-- A successful login of the user. -/
def Event.logsIn (userID : ℕ) : Event → Bool
  | ⟨.startSession user _, none⟩ => decide (user.id = userID)
  | _ => false

/-- A row of a session of the user that no one has ended. -/
def RefreshToken.activeOf (userID : ℕ) (r : RefreshToken) : Bool :=
  decide (r.userID = userID) && r.active

theorem not_exchanges (h : ¬ e.Grants) (hash : String) : e.exchanges hash = false := by
  unfold Event.exchanges
  split
  · exact absurd (.inr ⟨_, _, rfl⟩) h
  · rfl

/-- The token has been exchanged: its row is no longer active. -/
def Spent (rows : List RefreshToken) (hash : String) : Prop :=
  ∃ r ∈ rows, r.tokenHash = hash ∧ r.revokedAt ≠ none

theorem Spent.evolves (h : Spent rows hash) (hlater : Evolves RefreshToken.Later rows rows') :
    Spent rows' hash := by
  obtain ⟨r, hr, hhash, hrevoked⟩ := h
  obtain ⟨r', hr', hl⟩ := hlater r hr
  exact ⟨r', hr', hl.tokenHash.trans hhash, (hl.revokedAt hrevoked).symm ▸ hrevoked⟩

/-- A token is exchanged only when its row is active, and its row is not active afterwards. -/
theorem RowsStep.exchanges (h : RowsStep svc db e rows)
    (hhashes : (db.refreshTokens.map RefreshToken.tokenHash).Nodup) (he : e.exchanges hash = true) :
    ¬ Spent db.refreshTokens hash ∧ Spent rows hash := by
  cases h with
  | revoked hnot p now => simp [not_exchanges hnot] at he
  | started now hlocked hactive hhash hnew => simp [Event.exchanges] at he
  | @rotated row user now draw hrow hactive huser henabled hnew =>
    simp only [Event.exchanges, decide_eq_true_eq] at he
    subst he
    constructor
    · rintro ⟨r, hr, hhash, hrevoked⟩
      rw [inj_on_of_nodup_map hhashes hr hrow hhash] at hrevoked
      simp_all [RefreshToken.active]
    · refine ⟨row.rotate now draw.id, mem_append_left _ ?_, rfl, by simp [RefreshToken.rotate]⟩
      exact mem_updateWhere.2 ⟨row, hrow, by simp⟩

/-- A token is exchanged at most once. -/
theorem exchanges_run (h₀ : w₀.Init) (h : Run svc.Step w₀ es w) (hash : String) :
    es.countP (Event.exchanges hash) ≤ 1 := by
  refine h.at_most_once (I := World.Sound) (fun w => Spent w.db.refreshTokens hash)
    (fun w e w' hstep hw => hw.step hstep) ?_ ?_ h₀.sound
  · intro w e w' hstep hw hspent
    exact hspent.evolves ((hstep.rows hw.toEvolved).later hw.keyed hw.heads)
  · intro w e w' hstep hw he
    exact (hstep.rows hw.toEvolved).exchanges hw.hashes he

theorem countP_newRow (userID : ℕ) (user : User) (now : ℤ) (draw : Draw) :
    [svc.newRow user now draw].countP (RefreshToken.activeOf userID) =
      if user.id = userID then 1 else 0 := by
  simp [RefreshToken.activeOf, RefreshToken.active, Service.newRow, countP_singleton]

/-- A request starts at most the sessions it logs in. -/
theorem RowsStep.active_le (h : RowsStep svc db e rows) (userID : ℕ) :
    rows.countP (RefreshToken.activeOf userID) ≤
      db.refreshTokens.countP (RefreshToken.activeOf userID) +
        if e.logsIn userID = true then 1 else 0 := by
  cases h with
  | revoked hnot p now =>
    refine (countP_updateWhere_le fun r _ hq => ?_).trans (Nat.le_add_right _ _)
    simp [RefreshToken.activeOf, RefreshToken.active] at hq
  | @started user locked now draw hlocked hactive hhash hnew =>
    rw [countP_append, countP_newRow, lockUserTx_id hlocked]
    simp [Event.logsIn]
  | @rotated row user now draw hrow hactive huser henabled hnew =>
    have hinactive : ∀ r : RefreshToken, (r.rotate now draw.id).activeOf userID = false := by
      simp [RefreshToken.activeOf, RefreshToken.active, RefreshToken.rotate]
    rw [countP_append, countP_newRow, lockUserTx_id huser]
    split
    · rename_i huserID
      -- the row that was swapped was active, and is not any more
      have hlt := countP_updateWhere_lt (q := RefreshToken.activeOf userID)
        (p := fun r => decide (r.id = row.id)) (f := fun r => r.rotate now draw.id)
        (fun r _ => hinactive r) hrow (by simp) (by simp [RefreshToken.activeOf, huserID, hactive])
      omega
    · have hle : (updateWhere (fun r => decide (r.id = row.id)) (fun r => r.rotate now draw.id)
          db.refreshTokens).countP (RefreshToken.activeOf userID) ≤ _ :=
        countP_updateWhere_le fun r _ hq => by simp [hinactive r] at hq
      omega

/-- There are no more active sessions than logins. -/
theorem active_run (h₀ : w₀.Init) (h : Run svc.Step w₀ es w) (userID : ℕ) :
    w.db.refreshTokens.countP (RefreshToken.activeOf userID) ≤ es.countP (Event.logsIn userID) := by
  refine h.history_induction (I := fun es w => w.db.refreshTokens.countP
    (RefreshToken.activeOf userID) ≤ es.countP (Event.logsIn userID)) (by simp [h₀.refreshTokens]) ?_
  intro es w e w' hrun hstep hle
  have hstep_le := (hstep.rows (sound_run h₀ hrun).toEvolved).active_le userID
  rw [countP_append, countP_singleton]
  omega

/-- **Refresh tokens never fork.** In every state that requests of any number of processes lead to,
the rows form chains: no row has two predecessors or two successors, and no chain closes; a row
with a successor is revoked and stays so in every later state; a chain has at most one active row.
No token was exchanged twice, and no user has more active sessions than logins. -/
theorem refresh_chains (h₀ : w₀.Init) (h : Run svc.Step w₀ es w) :
    (∀ a a' b, Succ w.db.refreshTokens a b → Succ w.db.refreshTokens a' b → a = a') ∧
    (∀ a b b', Succ w.db.refreshTokens a b → Succ w.db.refreshTokens a b' → b = b') ∧
    (∀ a, ¬ Relation.TransGen (Succ w.db.refreshTokens) a a) ∧
    (∀ r ∈ w.db.refreshTokens, r.replacedBy ≠ none → r.active = false ∧
      ∀ es' w', Run svc.Step w es' w' → ∃ r', w'.db.refreshToken r.id = some r' ∧
        r'.revokedAt = r.revokedAt ∧ r'.replacedBy = r.replacedBy) ∧
    (∀ a, ∀ r ∈ w.db.refreshTokens, ∀ r' ∈ w.db.refreshTokens,
      Relation.ReflTransGen (Succ w.db.refreshTokens) a r.id →
      Relation.ReflTransGen (Succ w.db.refreshTokens) a r'.id →
      r.active = true → r'.active = true → r = r') ∧
    (∀ hash, es.countP (Event.exchanges hash) ≤ 1) ∧
    ∀ userID, w.db.refreshTokens.countP (RefreshToken.activeOf userID) ≤
      es.countP (Event.logsIn userID) := by
  have hw := sound_run h₀ h
  have hchained := chained_run h₀ h
  refine ⟨fun _ _ _ => hchained.succ_left_unique, fun _ _ _ => fun hb => succ_rightUnique hw.keyed hb,
    hchained.acyclic, fun r hr hlink => ⟨?_, fun es' w' h' => ?_⟩,
    fun a r hr r' hr' hreach hreach' hactive hactive' =>
      active_unique_in_chain hw.heads hw.keyed hr hr' hactive hactive' hreach hreach',
    exchanges_run h₀ h, active_run h₀ h⟩
  · have := hw.heads r hr hlink
    simpa [RefreshToken.active, Option.isSome_iff_ne_none] using this
  · obtain ⟨r', hr', hlater⟩ := hw.later_run h' r hr
    have hw' : w'.Sound := h'.preserves (fun _ _ _ hstep hw => hw.step hstep) hw
    exact ⟨r', hlater.id ▸ hw'.keyed.byKey_eq hr', hlater.revokedAt (hw.heads r hr hlink),
      hlater.replacedBy hlink⟩

/-- The user has one active session, and logged in once. -/
theorem refresh_chains_sample : sampleWorld.Init ∧ ∃ es w, Run sampleService.Step sampleWorld es w ∧
    es.countP (Event.exchanges "first") = 1 ∧ es.countP (Event.logsIn 1) = 1 ∧
    Succ w.db.refreshTokens 1 2 ∧
    w.db.refreshTokens.countP (RefreshToken.activeOf 1) ≤ es.countP (Event.logsIn 1) := by
  obtain ⟨w, hrun, hdb⟩ := rotated_run
  refine ⟨sampleWorld_init, _, w, hrun, by decide, by decide, ?_,
    (refresh_chains sampleWorld_init hrun).2.2.2.2.2.2 1⟩
  rw [hdb]
  exact ⟨_, mem_cons_self, rfl, rfl⟩

end Gombit.Auth
