import Gombit.Auth.Accounts

/-!
# Cutting off credentials

A password reset, a password change that revokes, and the disabling of an account end the sessions
there are. None of them comes back, and none is started later by a login that checked the password
before: a login that checked the old hash finds another hash under the lock.

* `ended_run`: a chain whose rows are all revoked stays so, and never grows.
* `logins_run`: the first row of a session, in every later state.
* `credential_cut_off`: the results about whole histories put together.
-/

namespace Gombit.Auth

open Rows List Service

variable {svc : Service} {plain db : DB} {w w' w₀ : World} {e : Event} {es : List Event}
  {rows rows' : List RefreshToken} {now : ℤ}

/-! ## Ended chains -/

/-- The session of the row `a` goes on with the row `r`. -/
def Continues (rows : List RefreshToken) (a : ℕ) (r : RefreshToken) : Prop :=
  r ∈ rows ∧ Relation.ReflTransGen (Succ rows) a r.id

/-- Every row of the chain from `a` on is revoked. -/
def Ended (rows : List RefreshToken) (a : ℕ) : Prop :=
  ∀ r, Continues rows a r → r.revokedAt ≠ none

variable {a b : ℕ}

theorem Succ.evolves (h : Succ rows a b) (hlater : Evolves RefreshToken.Later rows rows') :
    Succ rows' a b := by
  obtain ⟨r, hr, rfl, hlink⟩ := h
  obtain ⟨r', hr', hl⟩ := hlater r hr
  exact ⟨r', hr', hl.id, (hl.replacedBy (by simp [hlink])).trans hlink⟩

theorem reaches_evolves (h : Relation.ReflTransGen (Succ rows) a b)
    (hlater : Evolves RefreshToken.Later rows rows') : Relation.ReflTransGen (Succ rows') a b := by
  induction h with
  | refl => exact .refl
  | tail _ hsucc ih => exact ih.tail (hsucc.evolves hlater)

section OneStep

variable (h : RowsStep svc db e rows) (hkeyed : Keyed RefreshToken.id db.refreshTokens)

include h hkeyed

/-- A request gives no successor to a row that is revoked. -/
theorem RowsStep.link_of_revoked {r r' : RefreshToken} (hr : r ∈ db.refreshTokens)
    (hrevoked : r.revokedAt ≠ none) (hr' : r' ∈ rows) (hid : r'.id = r.id) :
    r'.replacedBy = r.replacedBy := by
  cases h with
  | revoked hnot p now =>
    obtain ⟨s, hs, rfl⟩ := mem_updateWhere.1 hr'
    have hsid : s.id = r.id := by
      rw [← hid]
      split <;> rfl
    rw [hkeyed.eq hs hr hsid]
    split <;> rfl
  | @started user locked now draw hlocked hactive hhash hnew =>
    rcases mem_append.1 hr' with hr' | hr'
    · rw [hkeyed.eq hr' hr hid]
    · rw [mem_singleton.1 hr'] at hid
      exact absurd hid.symm (hnew.id_ne hr)
  | @rotated row user now draw hrow hactive huser henabled hnew =>
    rcases mem_rotated hkeyed hrow hr' with ⟨hr', -⟩ | rfl | rfl
    · rw [hkeyed.eq hr' hr hid]
    · -- the row swapped is active
      have heq : row = r := hkeyed.eq hrow hr hid
      rw [heq] at hactive
      simp_all [RefreshToken.active]
    · exact absurd hid.symm (hnew.id_ne hr)

/-- What an ended chain reaches after a request, it reached before. -/
theorem RowsStep.reaches_of_ended (hchained : Chained db.refreshTokens)
    (ha : a ∈ db.refreshTokens.map RefreshToken.id) (hended : Ended db.refreshTokens a)
    (hreach : Relation.ReflTransGen (Succ rows) a b) :
    b ∈ db.refreshTokens.map RefreshToken.id ∧
      Relation.ReflTransGen (Succ db.refreshTokens) a b := by
  induction hreach with
  | refl => exact ⟨ha, .refl⟩
  | tail _ hsucc ih =>
    obtain ⟨hmem, hbefore⟩ := ih
    obtain ⟨r, hr, rfl⟩ := mem_map.1 hmem
    obtain ⟨r', hr', hid, hlink⟩ := hsucc
    rw [h.link_of_revoked hkeyed hr (hended r ⟨hr, hbefore⟩) hr' hid] at hlink
    obtain ⟨s, hs, rfl, -⟩ := hchained.successor r hr _ hlink
    exact ⟨mem_map_of_mem hs, hbefore.tail ⟨r, hr, rfl, hlink⟩⟩

theorem RowsStep.ended (hheads : HeadsActive db.refreshTokens)
    (hchained : Chained db.refreshTokens) (ha : a ∈ db.refreshTokens.map RefreshToken.id)
    (hended : Ended db.refreshTokens a) : Ended rows a := by
  rintro r' ⟨hr', hreach⟩
  obtain ⟨hmem, hbefore⟩ := h.reaches_of_ended hkeyed hchained ha hended hreach
  obtain ⟨r, hr, hid⟩ := mem_map.1 hmem
  have hrevoked := hended r ⟨hr, hid ▸ hbefore⟩
  obtain ⟨s, hs, hlater⟩ := h.later hkeyed hheads r hr
  have heq : s = r' := (h.keyed hkeyed).eq hs hr' (hlater.id.trans hid)
  rw [← heq, hlater.revokedAt hrevoked]
  exact hrevoked

end OneStep

/-- **An ended chain stays ended.** -/
theorem ended_run (hw : w.Sound) (hchained : Chained w.db.refreshTokens) (h : Run svc.Step w es w')
    (ha : a ∈ w.db.refreshTokens.map RefreshToken.id) (hended : Ended w.db.refreshTokens a) :
    Ended w'.db.refreshTokens a := by
  have hall := h.preserves (I := fun w => w.Sound ∧ Chained w.db.refreshTokens ∧
    a ∈ w.db.refreshTokens.map RefreshToken.id ∧ Ended w.db.refreshTokens a) ?_
    ⟨hw, hchained, ha, hended⟩
  · exact hall.2.2.2
  intro s e s' hstep ⟨hs, hc, hmem, hend⟩
  have hrows := hstep.rows hs.toEvolved
  refine ⟨hs.step hstep, hrows.chained hs.keyed hs.heads hc, ?_,
    hrows.ended hs.keyed hs.heads hc hmem hend⟩
  obtain ⟨r, hr, rfl⟩ := mem_map.1 hmem
  obtain ⟨r', hr', hlater⟩ := hrows.later hs.keyed hs.heads r hr
  rw [← hlater.id]
  exact mem_map_of_mem hr'

/-! ## Logins -/

/-- The row a login inserted is there, and replaces none. -/
structure Root (rows : List RefreshToken) (userID id : ℕ) : Prop where
  mem : ∃ r ∈ rows, r.id = id ∧ r.userID = userID
  first : ∀ a, ¬ Succ rows a id

variable {userID : ℕ}

theorem RowsStep.root_kept (h : RowsStep svc db e rows)
    (hkeyed : Keyed RefreshToken.id db.refreshTokens) (hheads : HeadsActive db.refreshTokens)
    {id : ℕ} (hroot : Root db.refreshTokens userID id) : Root rows userID id := by
  obtain ⟨⟨r, hr, rfl, hruser⟩, hfirst⟩ := hroot
  refine ⟨?_, ?_⟩
  · obtain ⟨r', hr', hlater⟩ := h.later hkeyed hheads r hr
    exact ⟨r', hr', hlater.id, hlater.userID.trans hruser⟩
  rintro a ⟨r', hr', rfl, hlink⟩
  cases h with
  | revoked hnot p now =>
    obtain ⟨s, hs, rfl⟩ := mem_updateWhere.1 hr'
    refine hfirst s.id ⟨s, hs, rfl, ?_⟩
    rw [← hlink]
    split <;> rfl
  | @started user locked now draw hlocked hactive hhash hnew =>
    rcases mem_append.1 hr' with hr' | hr'
    · exact hfirst _ ⟨r', hr', rfl, hlink⟩
    · rw [mem_singleton.1 hr'] at hlink
      cases hlink
  | @rotated row user now draw hrow hactive huser henabled hnew =>
    rcases mem_rotated hkeyed hrow hr' with ⟨hr', -⟩ | rfl | rfl
    · exact hfirst _ ⟨r', hr', rfl, hlink⟩
    · exact hnew.id_ne hr (Option.some.inj hlink).symm
    · cases hlink

variable {user : User} {draw : Draw}

/-- A successful login inserts the first row of a session, for the hash the user has. -/
theorem RowsStep.login (h : RowsStep svc db e rows) (hchained : Chained db.refreshTokens)
    (he : e = ⟨.startSession user draw, none⟩) :
    Root rows user.id draw.id ∧
      ∃ locked, db.lockUserTx user.id = some locked ∧ locked.passwordHash = user.passwordHash := by
  cases h with
  | revoked hnot p now => exact absurd (.inl ⟨_, _, he⟩) hnot
  | @started user' locked now draw' hlocked hactive hhash hnew =>
    simp only [Event.mk.injEq, Request.startSession.injEq, and_true] at he
    obtain ⟨rfl, rfl⟩ := he
    refine ⟨⟨⟨svc.newRow locked now draw', by simp, rfl, lockUserTx_id hlocked⟩, ?_⟩, locked,
      hlocked, hhash⟩
    rintro a ⟨r, hr, -, hlink⟩
    rcases mem_append.1 hr with hr | hr
    · obtain ⟨s, hs, hsid, -⟩ := hchained.successor r hr _ hlink
      exact hnew.id_ne hs hsid
    · rw [mem_singleton.1 hr] at hlink
      cases hlink
  | rotated now hrow hactive huser henabled hnew => simp at he

/-- A successful login of the history left the first row of its session. -/
theorem logins_run (h₀ : w₀.Init) (h : Run svc.Step w₀ es w)
    (he : ⟨.startSession user draw, none⟩ ∈ es) : Root w.db.refreshTokens user.id draw.id := by
  revert he
  refine h.history_induction (I := fun es w => ⟨.startSession user draw, none⟩ ∈ es →
    Root w.db.refreshTokens user.id draw.id) (by simp) ?_
  intro es s e s' hrun hstep ih he
  have hs := sound_run h₀ hrun
  have hrows := hstep.rows hs.toEvolved
  rcases mem_append.1 he with he | he
  · exact hrows.root_kept hs.keyed hs.heads (ih he)
  · exact (hrows.login (chained_run h₀ hrun) (mem_singleton.1 he).symm).1

/-- A login that succeeds checked a hash that the user has at that time. -/
theorem logins_outdated {w₁ : World} (hw : w₁.Sound) (hchained : Chained w₁.db.refreshTokens)
    (h : Run svc.Step w₁ es w') (hsaw : ∀ old, w.Saw old → w₁.Saw old)
    (hfresh : ∀ u, w₁.db.lockUserTx userID = some u → w.FreshHash u.passwordHash) {old : DB}
    (hold : w.Saw old) (huser : user ∈ old.users) (hid : user.id = userID) :
    ⟨.startSession user draw, none⟩ ∉ es := by
  intro he
  obtain ⟨before, after, rfl⟩ := append_of_mem he
  obtain ⟨s, hbefore, hrest⟩ := h.append_inv
  obtain ⟨s', hstep, -⟩ := hrest.cons_inv
  have hs : s.Sound ∧ Chained s.db.refreshTokens :=
    hbefore.preserves (I := fun s => s.Sound ∧ Chained s.db.refreshTokens)
      (fun s e s' hstep ⟨hs, hc⟩ => ⟨hs.step hstep,
        (hstep.rows hs.toEvolved).chained hs.keyed hs.heads hc⟩) ⟨hw, hchained⟩
  obtain ⟨-, locked, hlocked, hhash⟩ := (hstep.rows hs.1.toEvolved).login hs.2 rfl
  rw [hid] at hlocked
  exact outdated_run hbefore hsaw hfresh locked hlocked old hold user huser hhash.symm

/-- **What a cut-off gives.** When no one had the user's hash before, a session that is over when
the hash was replaced, started from a snapshot from before, is over for good; and a login from such
a snapshot fails later. -/
theorem cut_off {w₁ : World} (userID : ℕ) (h₀ : w₀.Init) (h : Run svc.Step w₀ es w)
    (hstep : svc.Step w e w₁) (hother : ∀ user draw, e ≠ ⟨.startSession user draw, none⟩)
    {es' : List Event} (h' : Run svc.Step w₁ es' w')
    (hfresh : ∀ u, w₁.db.lockUserTx userID = some u → w.FreshHash u.passwordHash) {old : DB}
    {snap : User} (hold : w.Saw old) (hsnap : snap ∈ old.users) (hid : snap.id = userID)
    (hlogin : ⟨.startSession snap draw, none⟩ ∈ es ++ e :: es')
    (hended : Root w₁.db.refreshTokens userID draw.id → Ended w₁.db.refreshTokens draw.id) :
    Ended w'.db.refreshTokens draw.id := by
  have hrun₁ := h.append (.single hstep)
  have hw₁ := sound_run h₀ hrun₁
  have hchained₁ := chained_run h₀ hrun₁
  have hlogin : ⟨.startSession snap draw, none⟩ ∈ es := by
    rcases mem_append.1 hlogin with hlogin | hlogin
    · exact hlogin
    rcases mem_cons.1 hlogin with heq | hlogin
    · exact absurd heq.symm (hother snap draw)
    · exact absurd hlogin (logins_outdated hw₁ hchained₁ h'
        (fun old hold => saw_run (.single hstep) hold) hfresh hold hsnap hid)
  have hroot : Root w₁.db.refreshTokens userID draw.id :=
    hid ▸ logins_run h₀ hrun₁ (mem_append_left _ hlogin)
  obtain ⟨r, hr, hrid, -⟩ := hroot.mem
  refine ended_run hw₁ hchained₁ h' ?_ (hended hroot)
  exact mem_map.2 ⟨r, hr, hrid⟩

/-! ## The requests -/

variable {db' : DB} {hash : String}

/-- A reset that commits replaces the hash and ends every session. -/
theorem consumeReset_eq_ok {screen : DB} {newHash : String} {screened : ℤ}
    (hkeep : svc.passwordResetKeepSessions = false)
    (hok : svc.consumeReset screen plain db hash newHash screened now = (.ok user, db')) :
    db'.users = (db.updateUser user.id fun u => { u with passwordHash := newHash }).users ∧
      db'.refreshTokens = (db.revokeAllTx user.id now).refreshTokens := by
  unfold consumeReset at hok
  split at hok
  · simp at hok
  split at hok
  · simp at hok
  rename_i token locked db₁ hconsumed
  obtain rfl := (consumeOneTimeToken_eq_ok hconsumed).db'
  simp only [hkeep, Bool.false_eq_true, if_false, Prod.mk.injEq, Except.ok.injEq] at hok
  obtain ⟨rfl, rfl⟩ := hok
  exact ⟨rfl, rfl⟩

variable {requester : ℕ}

/-- A change that commits replaces the hash and ends the sessions but the requester's. -/
theorem changePassword_eq_ok {before : DB} {current : String}
    (hok : svc.changePassword before plain db userID current hash false requester now = (.ok true, db')) :
    ∃ keep, Service.keptChain plain userID requester now = .ok keep ∧
      db'.users = (db.updateUser userID fun u => { u with passwordHash := hash }).users ∧
      db'.refreshTokens = (db.revokeSessionsButTx userID keep now).refreshTokens := by
  unfold changePassword at hok
  split at hok
  · simp at hok
  rename_i user huser
  rw [(mem_of_byKey huser).2] at hok
  split at hok
  · simp at hok
  split at hok
  · simp at hok
  split at hok
  · simp at hok
  split at hok
  · simp at hok
  split at hok
  · simp at hok
  rename_i keep hkeep
  simp only [Bool.false_eq_true, if_false, Bool.not_false, Prod.mk.injEq, true_and] at hok
  subst hok
  refine ⟨keep, hkeep, ?_, ?_⟩
  · split <;> rfl
  · split
    · rfl
    · rename_i hempty
      have hnil : keep = [] := eq_nil_of_length_eq_zero (by omega)
      simp [hnil, DB.revokeSessionsButTx, DB.revokeAllTx, DB.revokeWhere,
        DB.voidPasswordBoundTokensTx, DB.voidTokensTx, DB.useWhere]

/-- The hash of a user after an update of the hash. -/
theorem passwordHash_of_update
    (husers : db'.users = (db.updateUser userID fun u => { u with passwordHash := hash }).users)
    {u : User} (hu : db'.lockUserTx userID = some u) : u.passwordHash = hash := by
  obtain ⟨hmem, hid⟩ := mem_of_byKey hu
  rw [husers] at hmem
  obtain ⟨v, hv, rfl⟩ := mem_updateWhere.1 hmem
  split
  · rfl
  · rename_i hne
    rw [if_neg hne] at hid
    simp [hid] at hne

/-- The loop of `sessionChain` follows links. -/
theorem mem_chainLoop {start : ℕ} (hops next : ℕ) (ids : List ℕ) (last : Option RefreshToken)
    (hids : ∀ k ∈ ids, Relation.ReflTransGen (Succ plain.refreshTokens) start k)
    (hnext : Relation.ReflTransGen (Succ plain.refreshTokens) start next) :
    ∀ k ∈ (Service.chainLoop plain userID hops next ids last).1,
      Relation.ReflTransGen (Succ plain.refreshTokens) start k := by
  induction hops generalizing next ids last with
  | zero => exact hids
  | succ hops ih =>
    unfold chainLoop
    split
    · exact hids
    rename_i row hfound
    split
    · exact hids
    rename_i id hlink
    split
    · exact hids
    have hrow := mem_of_find?_eq_some hfound
    have hid : row.id = next := by
      have hsel := List.find?_some hfound
      simp only [Bool.and_eq_true, decide_eq_true_eq] at hsel
      exact hsel.1
    have hstep := hnext.tail ⟨row, hrow, hid, hlink⟩
    refine ih id (ids ++ [id]) (some row) (fun k hk => ?_) hstep
    rcases mem_append.1 hk with hk | hk
    · exact hids k hk
    · rw [mem_singleton.1 hk]
      exact hstep

/-- The rows kept are the requester's and its successors. -/
theorem mem_keptChain {keep : List ℕ} (h : Service.keptChain plain userID requester now = .ok keep) :
    ∀ k ∈ keep, requester ≠ 0 ∧ Relation.ReflTransGen (Succ plain.refreshTokens) requester k := by
  unfold keptChain at h
  split at h
  · rw [← Except.ok.inj h]
    simp
  rename_i hne
  unfold requesterChain at h
  split at h
  · cases h
  rename_i ids head hchain
  split at h
  · cases h
  rw [← Except.ok.inj h]
  intro k hk
  have hids : ids = (sessionChain plain userID requester).1 := by rw [hchain]
  rw [hids] at hk
  exact ⟨hne, mem_chainLoop _ _ _ _ (by simp [Relation.ReflTransGen.refl]) .refl k hk⟩

/-- In a forest of chains a row that two rows lead to is behind one of them. -/
theorem reaches_of_reaches (hchained : Chained rows) {c : ℕ}
    (ha : Relation.ReflTransGen (Succ rows) a c) (hb : Relation.ReflTransGen (Succ rows) b c)
    (hfirst : ∀ d, ¬ Succ rows d a) : Relation.ReflTransGen (Succ rows) a b := by
  induction hb with
  | refl => exact ha
  | @tail d c _ hsucc ih =>
    rcases ha.cases_tail with rfl | ⟨d', had', hsucc'⟩
    · exact absurd hsucc (hfirst d)
    · rw [hchained.succ_left_unique hsucc' hsucc] at had'
      exact ih had'

/-- A row of the chain of a user's row is the user's. -/
theorem userID_of_continues (hchained : Chained rows) (hkeyed : Keyed RefreshToken.id rows)
    (ha : ∃ r ∈ rows, r.id = a ∧ r.userID = userID) (h : Relation.ReflTransGen (Succ rows) a b) :
    ∃ r ∈ rows, r.id = b ∧ r.userID = userID := by
  induction h with
  | refl => exact ha
  | tail _ hsucc ih =>
    obtain ⟨r, hr, hid, huser⟩ := ih
    obtain ⟨r', hr', hid', hlink⟩ := hsucc
    have heq : r' = r := hkeyed.eq hr' hr (hid'.trans hid.symm)
    rw [heq] at hlink
    obtain ⟨s, hs, hsid, hsuser⟩ := hchained.successor r hr _ hlink
    exact ⟨s, hs, hsid, hsuser.trans huser⟩

/-- The chain of a user's row is over when every row of the user in it is revoked. -/
theorem ended_of_revoked (hchained : Chained rows) (hkeyed : Keyed RefreshToken.id rows)
    (ha : ∃ r ∈ rows, r.id = a ∧ r.userID = userID)
    (hrevoked : ∀ r, Continues rows a r → r.userID = userID → r.revokedAt ≠ none) :
    Ended rows a := by
  rintro r ⟨hr, hreach⟩
  obtain ⟨r', hr', hid, huser⟩ := userID_of_continues hchained hkeyed ha hreach
  have heq : r' = r := hkeyed.eq hr' hr hid
  exact hrevoked r ⟨hr, hreach⟩ (heq ▸ huser)

/-! ## Refusals -/

/-- An exchange that succeeds finds the token's row active. -/
theorem RowsStep.exchange (h : RowsStep svc db e rows)
    (he : e = ⟨.rotateRefreshOnce hash draw, none⟩) :
    ∃ row ∈ db.refreshTokens, row.tokenHash = hash ∧ row.active = true := by
  cases h with
  | revoked hnot p now => exact absurd (.inr ⟨_, _, he⟩) hnot
  | started now hlocked hactive hhash hnew => simp at he
  | @rotated row user now draw' hrow hactive huser henabled hnew =>
    simp only [Event.mk.injEq, Request.rotateRefreshOnce.injEq, and_true] at he
    exact ⟨row, hrow, he.1, hactive⟩

/-- A token whose row is revoked is refused, whatever the plain read saw. -/
theorem rotateRefreshOnce_refuses (hw : w.Sound) (hplain : w.Saw plain)
    (h : ∀ r ∈ w.db.refreshTokens, r.tokenHash = hash → r.revokedAt ≠ none) (now : ℤ) (draw : Draw) :
    ∃ err, (svc.rotateRefreshOnce plain w.db hash now draw).1 = .error err := by
  have hrows : RowsStep svc _ _ _ := rotateRefreshOnce_rows hw.toEvolved hplain hash now draw
  cases hout : (svc.rotateRefreshOnce plain w.db hash now draw).1 with
  | error err => exact ⟨err, rfl⟩
  | ok pair =>
    have hok : Outcome.err (svc.rotateRefreshOnce plain w.db hash now draw) = none := by
      simp [Outcome.err, hout]
    rw [hok] at hrows
    obtain ⟨row, hrow, hhash, hactive⟩ := hrows.exchange rfl
    have hrevoked := h row hrow hhash
    simp_all [RefreshToken.active]

variable {claims : AccessClaims}

theorem parseAccessToken_eq {claims' : AccessClaims}
    (h : Service.parseAccessToken claims now = .ok claims') : claims' = claims := by
  unfold parseAccessToken at h
  split_ifs at h
  exact (Except.ok.inj h).symm

theorem parseAccessToken_error {err : Err} (h : Service.parseAccessToken claims now = .error err) :
    err = .invalidAccessToken := by
  unfold parseAccessToken at h
  split_ifs at h
  exact (Except.error.inj h).symm

/-- An access token of a disabled user is refused. -/
theorem parseAccess_disabled {now' : ℤ} (h : db.Disabled claims.subject) :
    Service.parseAccess db plain claims now now' = .error .invalidAccessToken := by
  obtain ⟨u, hu, hdisabled⟩ := h
  rw [DB.lockUserTx] at hu
  unfold parseAccess
  cases hparsed : parseAccessToken claims now with
  | error err => rw [parseAccessToken_error hparsed]
  | ok claims' =>
    rw [parseAccessToken_eq hparsed]
    dsimp only
    rw [hu]
    exact if_pos hdisabled

/-- An access token whose session is revoked is refused. -/
theorem parseAccess_revoked {now' : ℤ}
    (h : ∀ r ∈ db.refreshTokens, r.id = claims.refreshID → r.userID = claims.subject → r.revokedAt ≠ none) :
    Service.parseAccess plain db claims now now' = .error .invalidAccessToken := by
  unfold parseAccess
  cases hparsed : parseAccessToken claims now with
  | error err => rw [parseAccessToken_error hparsed]
  | ok claims' =>
    rw [parseAccessToken_eq hparsed]
    dsimp only
    split
    · rfl
    rename_i user huser
    split
    · rfl
    split
    · rfl
    rename_i row hrow
    refine if_pos ?_
    by_cases huserID : row.userID = user.id
    · have hrevoked := h row (mem_of_byKey hrow).1 (mem_of_byKey hrow).2
        (huserID.trans (mem_of_byKey huser).2)
      exact .inr (.inl (Option.isSome_iff_ne_none.2 hrevoked))
    · exact .inl huserID

/-- The user is disabled after a request that disables. -/
theorem setUserState_disabled {check : User → Option Err}
    (hok : Service.setUserState db userID true check now = (.ok user, db')) :
    db'.Disabled userID := by
  unfold setUserState at hok
  split at hok
  · simp at hok
  rename_i locked hlocked
  split at hok
  · simp at hok
  split at hok
  · rename_i hsame
    obtain ⟨-, rfl⟩ := Prod.mk.inj hok
    exact ⟨locked, hlocked, hsame⟩
  simp only [Bool.not_true, Bool.false_eq_true, if_false, Prod.mk.injEq, Except.ok.injEq] at hok
  obtain ⟨-, rfl⟩ := hok
  refine ⟨{ locked with disabledAt := some now }, ?_, rfl⟩
  change byKey User.id (updateWhere _ _ db.users) userID = _
  rw [updateWhere, byKey_map fun u _ => by split <;> rfl, ← DB.lockUserTx, hlocked]
  simp [lockUserTx_id hlocked]

/-! ## Whole histories -/

/-- A session of the history: the row a login from the snapshot inserted, and those after it. -/
def Session (es : List Event) (rows : List RefreshToken) (snap : User) (draw : Draw)
    (r : RefreshToken) : Prop :=
  ⟨.startSession snap draw, none⟩ ∈ es ∧ Continues rows draw.id r

theorem Ended.inactive (h : Ended rows a) {r : RefreshToken} (hr : Continues rows a r) :
    r.active = false := by
  simpa [RefreshToken.active, Option.isSome_iff_ne_none] using h r hr

section Histories

variable {es' : List Event} {db' old : DB} {snap : User} {draw : Draw}
  (h₀ : w₀.Init) (h : Run svc.Step w₀ es w) (h' : Run svc.Step (w.commit db') es' w')

include h₀ h h'

theorem ended_of_reset {screen : DB} {newHash : String} {screened : ℤ} (hscreen : w.Saw screen)
    (hplain : w.Saw plain) (hfresh : w.FreshHash newHash)
    (hkeep : svc.passwordResetKeepSessions = false)
    (hok : svc.consumeReset screen plain w.db hash newHash screened now = (.ok user, db'))
    (hold : w.Saw old) (hsnap : snap ∈ old.users) (hid : snap.id = user.id)
    (hlogin : ⟨.startSession snap draw, none⟩ ∈ es ++ ⟨.consumeReset hash newHash, none⟩ :: es') :
    Ended w'.db.refreshTokens draw.id := by
  have hstep := consumeReset_step hscreen hplain hfresh hok
  obtain ⟨husers, hrows⟩ := consumeReset_eq_ok hkeep hok
  have hrun₁ := h.append (.single hstep)
  refine cut_off user.id h₀ h hstep (by simp) h' (fun u hu => ?_) hold hsnap hid
    hlogin fun hroot => ?_
  · rw [passwordHash_of_update husers hu]
    exact hfresh
  · refine ended_of_revoked (chained_run h₀ hrun₁) (sound_run h₀ hrun₁).keyed hroot.mem ?_
    intro r hr huser
    rw [World.commit_db, hrows] at hr
    exact revokedAt_of_mem_revokeWhere (p := fun r => decide (r.userID = user.id)) hr.1
      fun r' _ _ hsame => by simp [hsame, huser]

theorem ended_of_change {before : DB} {current : String} (hbefore : w.Saw before)
    (hplain : w.Saw plain) (hfresh : w.FreshHash hash)
    (hok : svc.changePassword before plain w.db userID current hash false requester now = (.ok true, db'))
    (hold : w.Saw old) (hsnap : snap ∈ old.users) (hid : snap.id = userID)
    (hlogin : ⟨.startSession snap draw, none⟩ ∈ es ++ ⟨.changePassword userID hash false requester, none⟩ :: es')
    (hother : requester ≠ 0 → ¬ Relation.ReflTransGen (Succ w'.db.refreshTokens) draw.id requester) :
    Ended w'.db.refreshTokens draw.id := by
  have hstep := changePassword_step hbefore hplain hfresh hok
  obtain ⟨keep, hkeep, husers, hrows⟩ := changePassword_eq_ok hok
  have hrun₁ := h.append (.single hstep)
  have hw₁ := sound_run h₀ hrun₁
  have hchained₁ := chained_run h₀ hrun₁
  refine cut_off userID h₀ h hstep (by simp) h' (fun u hu => ?_) hold hsnap hid
    hlogin fun hroot => ?_
  · rw [passwordHash_of_update husers hu]
    exact hfresh
  · refine ended_of_revoked hchained₁ hw₁.keyed hroot.mem ?_
    intro r hr huser
    -- a row that is kept is the requester's or follows it, and then so does the login's
    have hout : r.id ∉ keep := by
      intro hmem
      obtain ⟨hne, hreach⟩ := mem_keptChain hkeep r.id hmem
      have hreach₁ := reaches_evolves hreach (hw₁.later plain (World.saw_commit.2 (.inr hplain)))
      have hown := reaches_of_reaches hchained₁ hr.2 hreach₁ hroot.first
      exact hother hne (reaches_evolves hown (hw₁.later_run h'))
    rw [World.commit_db, hrows] at hr
    exact revokedAt_of_mem_revokeWhere
      (p := fun r => decide (r.userID = userID) && decide (r.id ∉ keep)) hr.1
      fun r' _ hsameID hsame => by simp [hsameID, hsame, huser, hout]

section Disabling

variable {userID : ℕ} {check : User → Option Err} {user : User}
  (hok : Service.setUserState w.db userID true check now = (.ok user, db'))

include hok

/-- While the user is disabled, every session of the user is over. -/
theorem revoked_while_disabled (hes : ∀ e ∈ es', e ≠ ⟨.setUserState userID false, none⟩) :
    w'.db.Disabled userID ∧
      ∀ r ∈ w'.db.refreshTokens, r.userID = userID → r.revokedAt ≠ none := by
  have hrun := (h.append (.single (setUserState_step hok))).append h'
  obtain ⟨u, hu, hdisabled⟩ := disabled_run h' hes (setUserState_disabled hok)
  exact ⟨⟨u, hu, hdisabled⟩, fun r hr huser =>
    (accounts_run h₀ hrun).disabled r hr u (huser ▸ hu) hdisabled⟩

/-- The sessions there were when the user was disabled are over for good. -/
theorem ended_of_disable {row : RefreshToken} (hrow : row ∈ db'.refreshTokens)
    (huser : row.userID = userID) : Ended w'.db.refreshTokens row.id := by
  have hstep : svc.Step w _ _ := setUserState_step hok
  have hrun₁ := h.append (.single hstep)
  have hw₁ := sound_run h₀ hrun₁
  have hchained₁ := chained_run h₀ hrun₁
  refine ended_run hw₁ hchained₁ h' (mem_map_of_mem hrow) ?_
  refine ended_of_revoked hchained₁ hw₁.keyed ⟨row, hrow, rfl, huser⟩ fun r hr hruser => ?_
  exact hstep.disables (accounts_run h₀ h) rfl r hr.1 hruser

end Disabling

end Histories

/-- **Credential cut-off.** After a committed password reset that does not keep the sessions, no
session started from a snapshot of the user taken before it is active, then or later; after a
committed password change that revokes, the same holds of every session but the requester's; and
after the user was disabled, every access and refresh token of the user is refused until someone
enables the user, and the sessions there were are refused for ever. -/
theorem credential_cut_off (h₀ : w₀.Init) (h : Run svc.Step w₀ es w) :
    (∀ screen plain hash newHash screened now user db', w.Saw screen → w.Saw plain →
      w.FreshHash newHash → svc.passwordResetKeepSessions = false →
      svc.consumeReset screen plain w.db hash newHash screened now = (.ok user, db') →
      ∀ es' w', Run svc.Step (w.commit db') es' w' → ∀ old snap draw r, w.Saw old →
        snap ∈ old.users → snap.id = user.id →
        Session (es ++ ⟨.consumeReset hash newHash, none⟩ :: es') w'.db.refreshTokens snap draw r →
        r.active = false) ∧
    (∀ before plain userID current hash requester now db', w.Saw before → w.Saw plain →
      w.FreshHash hash →
      svc.changePassword before plain w.db userID current hash false requester now =
        (.ok true, db') →
      ∀ es' w', Run svc.Step (w.commit db') es' w' → ∀ old snap draw r, w.Saw old →
        snap ∈ old.users → snap.id = userID →
        Session (es ++ ⟨.changePassword userID hash false requester, none⟩ :: es')
          w'.db.refreshTokens snap draw r →
        (requester ≠ 0 → ¬ Relation.ReflTransGen (Succ w'.db.refreshTokens) draw.id requester) →
        r.active = false) ∧
    (∀ userID check now user db',
      Service.setUserState w.db userID true check now = (.ok user, db') →
      ∀ es' w', Run svc.Step (w.commit db') es' w' →
        ((∀ e ∈ es', e ≠ ⟨.setUserState userID false, none⟩) →
          (∀ plain claims now now', claims.subject = userID →
            Service.parseAccess w'.db plain claims now now' = .error .invalidAccessToken ∧
            Service.parseAccess plain w'.db claims now now' = .error .invalidAccessToken) ∧
          ∀ row ∈ w'.db.refreshTokens, row.userID = userID → ∀ plain, w'.Saw plain →
            ∀ now draw, ∃ err,
              (svc.rotateRefreshOnce plain w'.db row.tokenHash now draw).1 = .error err) ∧
        ∀ row ∈ db'.refreshTokens, row.userID = userID →
          ∀ r, Continues w'.db.refreshTokens row.id r →
            (∀ plain claims now now', claims.refreshID = r.id →
              Service.parseAccess plain w'.db claims now now' = .error .invalidAccessToken) ∧
            ∀ plain, w'.Saw plain → ∀ now draw, ∃ err,
              (svc.rotateRefreshOnce plain w'.db r.tokenHash now draw).1 = .error err) := by
  refine ⟨?_, ?_, ?_⟩
  · intro screen plain hash newHash screened now user db' hscreen hplain hfresh hkeep hok es' w' h'
      old snap draw r hold hsnap hid ⟨hlogin, hr⟩
    exact (ended_of_reset h₀ h h' hscreen hplain hfresh hkeep hok hold hsnap hid hlogin).inactive hr
  · intro before plain userID current hash requester now db' hbefore hplain hfresh hok es' w' h'
      old snap draw r hold hsnap hid ⟨hlogin, hr⟩ hother
    exact (ended_of_change h₀ h h' hbefore hplain hfresh hok hold hsnap hid hlogin hother).inactive hr
  · intro userID check now user db' hok es' w' h'
    have hw' := sound_run h₀ ((h.append (.single (setUserState_step hok))).append h')
    refine ⟨fun hes => ?_, fun row hrow huser r hr => ?_⟩
    · obtain ⟨hdisabled, hrevoked⟩ := revoked_while_disabled h₀ h h' hok hes
      refine ⟨fun plain claims now now' hsubject => ⟨?_, ?_⟩, fun row hrow huser plain hplain => ?_⟩
      · exact parseAccess_disabled (hsubject ▸ hdisabled)
      · exact parseAccess_revoked fun r hr _ hruser => hrevoked r hr (hruser.trans hsubject)
      · refine rotateRefreshOnce_refuses hw' hplain fun r hr hhash => ?_
        rw [inj_on_of_nodup_map hw'.hashes hr hrow hhash]
        exact hrevoked row hrow huser
    · have hrevoked := ended_of_disable h₀ h h' hok hrow huser r hr
      refine ⟨fun plain claims now now' hid => parseAccess_revoked fun s hs hsid _ => ?_,
        fun plain hplain => rotateRefreshOnce_refuses hw' hplain fun s hs hhash => ?_⟩
      · rw [hw'.keyed.eq hs hr.1 (hsid.trans hid)]
        exact hrevoked
      · rw [inj_on_of_nodup_map hw'.hashes hs hr.1 hhash]
        exact hrevoked

/-- The reset ends the session of the login. -/
theorem credential_cut_off_sample : sampleWorld.Init ∧ ∃ es w user db' r,
    Run sampleService.Step sampleWorld es w ∧
    sampleService.consumeReset w.db w.db w.db "reset" "fresh" 2 2 = (.ok user, db') ∧
    Session (es ++ [⟨.consumeReset "reset" "fresh", none⟩]) db'.refreshTokens sampleUser ⟨1, "first"⟩
      r ∧ r.active = false := by
  obtain ⟨w, hrun, hdb, hfresh⟩ := mailed_run
  have hok : sampleService.consumeReset w.db w.db w.db "reset" "fresh" 2 2 =
      (.ok { sampleUser with passwordHash := "fresh" },
        ⟨[{ sampleUser with passwordHash := "fresh" }],
          [{ sampleService.newRow sampleUser 0 ⟨1, "first"⟩ with revokedAt := some 2 }],
          [{ sampleService.newToken sampleUser .resetPassword 0 ⟨1, "reset"⟩ with
            sentAt := some 1, usedAt := some 2 }]⟩) := by
    rw [hdb]
    rfl
  refine ⟨sampleWorld_init, _, w, _, _, _, hrun, hok,
    ⟨mem_cons_self, mem_cons_self, .refl⟩, ?_⟩
  exact (credential_cut_off sampleWorld_init hrun).1 _ _ _ _ _ _ _ _ w.saw_db w.saw_db hfresh rfl
    hok [] _ (.nil _) _ sampleUser ⟨1, "first"⟩ _ w.saw_db (by rw [hdb]; exact mem_cons_self)
    rfl ⟨mem_cons_self, mem_cons_self, .refl⟩

end Gombit.Auth
