import Gombit.Auth.System

/-!
# What a request does to the tables

Each request is taken apart once, and the results about whole runs follow from what it is found to
do.

* `Service.Step.rows`: to the refresh tokens a request revokes some, or adds the first row of a
  session, or replaces the last row of a session by a new one (`RowsStep`).
* `Service.Step.users`: of a user it changes the password hash, to one never seen before, or the
  state (`UserLater`).
* `Service.Step.ends`: a request that puts no token into anyone's hands revokes refresh tokens, updates
  users and uses one-time tokens up (`Ends`).

A rotation acts on a row it read earlier. That the row it swaps is the one it read is part of
`Evolved`, the invariant that every state a plain read can see has evolved into the present one.
-/

namespace Gombit.Auth

open Rows List Service

/-! ## Refresh tokens over time -/

/-- `r'` is a later version of the row `r`: it may have been revoked and replaced since. -/
structure RefreshToken.Later (r r' : RefreshToken) : Prop where
  id : r'.id = r.id
  userID : r'.userID = r.userID
  tokenHash : r'.tokenHash = r.tokenHash
  expiresAt : r'.expiresAt = r.expiresAt
  revokedAt : r.revokedAt ≠ none → r'.revokedAt = r.revokedAt
  replacedBy : r.replacedBy ≠ none → r'.replacedBy = r.replacedBy

theorem RefreshToken.Later.refl (r : RefreshToken) : r.Later r :=
  ⟨rfl, rfl, rfl, rfl, fun _ => rfl, fun _ => rfl⟩

theorem RefreshToken.Later.trans {a b c : RefreshToken} (h : a.Later b) (h' : b.Later c) :
    a.Later c where
  id := h'.id.trans h.id
  userID := h'.userID.trans h.userID
  tokenHash := h'.tokenHash.trans h.tokenHash
  expiresAt := h'.expiresAt.trans h.expiresAt
  revokedAt hne := by
    have heq := h.revokedAt hne
    rw [← heq] at hne ⊢
    exact h'.revokedAt hne
  replacedBy hne := by
    have heq := h.replacedBy hne
    rw [← heq] at hne ⊢
    exact h'.replacedBy hne

/-- The row as a rotation leaves it. -/
def RefreshToken.rotate (r : RefreshToken) (now : ℤ) (next : ℕ) : RefreshToken :=
  { r with revokedAt := some now, replacedBy := some next }

/-- A request that puts a new refresh token into someone's hands. -/
def Event.Grants (e : Event) : Prop :=
  (∃ user draw, e = ⟨.startSession user draw, none⟩) ∨
    ∃ hash draw, e = ⟨.rotateRefreshOnce hash draw, none⟩

/-- The key and the token of a new row are new. -/
structure NewRow (rows : List RefreshToken) (draw : Draw) : Prop where
  id : draw.id ∉ rows.map RefreshToken.id
  tokenHash : draw.tokenHash ∉ rows.map RefreshToken.tokenHash

theorem NewRow.id_ne {rows : List RefreshToken} {draw : Draw} (h : NewRow rows draw)
    {r : RefreshToken} (hr : r ∈ rows) : r.id ≠ draw.id :=
  fun heq => h.id (heq ▸ mem_map_of_mem hr)

theorem NewRow.tokenHash_ne {rows : List RefreshToken} {draw : Draw} (h : NewRow rows draw)
    {r : RefreshToken} (hr : r ∈ rows) : r.tokenHash ≠ draw.tokenHash :=
  fun heq => h.tokenHash (heq ▸ mem_map_of_mem hr)

/-- What a request can do to the refresh tokens. -/
inductive RowsStep (svc : Service) (db : DB) : Event → List RefreshToken → Prop
  /-- It revokes rows, or changes nothing. -/
  | revoked {e : Event} (hnot : ¬ e.Grants) (p : RefreshToken → Bool) (now : ℤ) :
      RowsStep svc db e (db.revokeWhere p now).refreshTokens
  /-- A login, with the password hash the user still has. -/
  | started {user locked : User} (now : ℤ) {draw : Draw}
      (hlocked : db.lockUserTx user.id = some locked) (hactive : locked.disabled = false)
      (hhash : locked.passwordHash = user.passwordHash) (hnew : NewRow db.refreshTokens draw) :
      RowsStep svc db ⟨.startSession user draw, none⟩
        (db.refreshTokens ++ [svc.newRow locked now draw])
  /-- A rotation of a row that is active. -/
  | rotated {row : RefreshToken} {user : User} (now : ℤ) {draw : Draw} (hrow : row ∈ db.refreshTokens)
      (hactive : row.active = true) (huser : db.lockUserTx row.userID = some user)
      (henabled : user.disabled = false) (hnew : NewRow db.refreshTokens draw) :
      RowsStep svc db ⟨.rotateRefreshOnce row.tokenHash draw, none⟩
        (updateWhere (fun r => decide (r.id = row.id)) (fun r => r.rotate now draw.id)
          db.refreshTokens ++ [svc.newRow user now draw])

/-- Every state a plain read can see has evolved into the present one. -/
structure World.Evolved (w : World) : Prop where
  keyed : Keyed RefreshToken.id w.db.refreshTokens
  hashes : (w.db.refreshTokens.map RefreshToken.tokenHash).Nodup
  later : ∀ old, w.Saw old → Evolves RefreshToken.Later old.refreshTokens w.db.refreshTokens

/-! ## Request by request -/

variable {e : Event} {db' old : DB} {w : World} {purpose : TokenPurpose} {locked : User}

section Requests

variable {svc : Service} {plain db : DB} {now : ℤ} {draw : Draw}

/-- Revoking changes no column but `revoked_at`. -/
theorem map_revokeWhere {α : Type} {g : RefreshToken → α}
    (h : ∀ r t, g { r with revokedAt := some t } = g r) (p : RefreshToken → Bool) :
    (db.revokeWhere p now).refreshTokens.map g = db.refreshTokens.map g :=
  map_updateWhere fun r => h r now

theorem revokeWhere_false (db : DB) (now : ℤ) : (db.revokeWhere (fun _ => false) now) = db := by
  rw [DB.revokeWhere, updateWhere_eq_self (by simp)]

/-- A request that changes no refresh token. -/
theorem RowsStep.kept (hnot : ¬ e.Grants) : RowsStep svc db e db.refreshTokens := by
  have h : RowsStep svc db e _ := .revoked hnot (fun _ => false) 0
  rwa [revokeWhere_false] at h

/-- A request that is refused. -/
theorem RowsStep.refused {request : Request} {err : Err} :
    RowsStep svc db ⟨request, some err⟩ db.refreshTokens := .kept (by simp [Event.Grants])

theorem issueTokens_eq_ok {user : User} {pair : TokenPair}
    (h : svc.issueTokens db user now draw = .ok (pair, db')) :
    NewRow db.refreshTokens draw ∧ pair.refreshToken = draw.tokenHash ∧
      db' = { db with refreshTokens := db.refreshTokens ++ [svc.newRow user now draw] } := by
  unfold issueTokens at h
  split_ifs at h
  rename_i hany
  obtain ⟨rfl, rfl⟩ := Prod.mk.inj (Except.ok.inj h)
  refine ⟨⟨fun hid => hany ?_, fun hhash => hany ?_⟩, rfl, rfl⟩
  · obtain ⟨r, hr, heq⟩ := mem_map.1 hid
    exact any_eq_true.2 ⟨r, hr, by simp [heq]⟩
  · obtain ⟨r, hr, heq⟩ := mem_map.1 hhash
    exact any_eq_true.2 ⟨r, hr, by simp [heq]⟩

theorem startSession_rows (user : User) :
    RowsStep svc db ⟨.startSession user draw, Outcome.err (svc.startSession db user now draw)⟩
      (svc.startSession db user now draw).2.refreshTokens := by
  unfold startSession
  split
  · exact .refused
  rename_i locked hlocked
  split
  · exact .refused
  split
  · exact .refused
  rename_i hactive hhash
  cases hissued : svc.issueTokens db locked now draw with
  | error e => exact .refused
  | ok issued =>
    obtain ⟨pair, db'⟩ := issued
    obtain ⟨hnew, -, rfl⟩ := issueTokens_eq_ok hissued
    exact .started now hlocked (by simpa using hactive) (not_not.1 hhash) hnew

/-- The row a compare-and-swap finds is the row that was read. -/
theorem World.Evolved.current (hw : w.Evolved) (hold : w.Saw old) {row cur : RefreshToken}
    (hrow : row ∈ old.refreshTokens) (hcur : cur ∈ w.db.refreshTokens) (hid : cur.id = row.id) :
    row.Later cur := by
  obtain ⟨r', hr', hlater⟩ := hw.later old hold row hrow
  rwa [hw.keyed.eq hr' hcur (hlater.id.trans hid.symm)] at hlater

/-- The rows a rotation commits. -/
theorem swap_rows (svc : Service) (user : User) (now : ℤ) {cur : RefreshToken}
    (hkeyed : Keyed RefreshToken.id db.refreshTokens) (hcur : cur ∈ db.refreshTokens)
    (hactive : cur.active = true) (hnew : NewRow db.refreshTokens draw) :
    updateWhere (fun r => decide (r.id = cur.id))
        (fun r => { r with replacedBy := some draw.id })
        ((db.revokeWhere (fun r => decide (r.id = cur.id)) now).refreshTokens ++
          [svc.newRow user now draw]) =
      updateWhere (fun r => decide (r.id = cur.id)) (fun r => r.rotate now draw.id)
        db.refreshTokens ++ [svc.newRow user now draw] := by
  have hne : (svc.newRow user now draw).id ≠ cur.id := (hnew.id_ne hcur).symm
  simp only [updateWhere, DB.revokeWhere, map_append, map_map, map_singleton, hne,
    decide_false, Bool.false_eq_true, if_false, append_left_inj]
  refine map_congr_left fun r hr => ?_
  by_cases hid : r.id = cur.id
  · have : r = cur := hkeyed.eq hr hcur hid
    subst this
    simp [hactive, RefreshToken.rotate]
  · simp [hid]

theorem swap_step (hw : w.Evolved) (hold : w.Saw old) {row : RefreshToken} {user : User}
    (hrow : row ∈ old.refreshTokens) (huser : w.db.lockUserTx row.userID = some user)
    (henabled : user.disabled = false) :
    RowsStep svc w.db
      ⟨.rotateRefreshOnce row.tokenHash draw, Outcome.err (svc.swap w.db row user now draw)⟩
      (svc.swap w.db row user now draw).2.refreshTokens := by
  unfold Service.swap
  split
  · exact .refused
  rename_i hswapped
  obtain ⟨cur, hcur, hsel⟩ : ∃ cur ∈ w.db.refreshTokens,
      (decide (cur.id = row.id) && cur.active) = true := by
    rw [← countP_pos_iff]
    rw [not_not, affected] at hswapped
    omega
  simp only [Bool.and_eq_true, decide_eq_true_eq] at hsel
  have hlater := hw.current hold hrow hcur hsel.1
  split
  · exact .refused
  rename_i pair db' hissued
  obtain ⟨hnew, hpair, rfl⟩ := issueTokens_eq_ok hissued
  have hnew' : NewRow w.db.refreshTokens draw := by
    obtain ⟨hid, hhash⟩ := hnew
    rw [map_revokeWhere fun _ _ => rfl] at hid hhash
    exact ⟨hid, hhash⟩
  split
  · exact .refused
  rename_i replacement hfound
  -- the drawn token is new, so the row found by it is the row just inserted
  have hreplacement : replacement = svc.newRow user now draw := by
    rw [hpair] at hfound
    have hnone : (w.db.revokeWhere (fun r => decide (r.id = row.id)) now).refreshTokens.find?
        (fun r => decide (r.tokenHash = draw.tokenHash)) = none := by
      rw [List.find?_eq_none]
      intro r hr
      simpa using hnew.tokenHash_ne hr
    simp only [DB.refreshByHash, List.find?_append, hnone, Option.none_or] at hfound
    simpa [Service.newRow, eq_comm] using hfound
  subst hreplacement
  have hrows := swap_rows svc user now hw.keyed hcur hsel.2 hnew'
  rw [hsel.1] at hrows
  dsimp only
  rw [show (svc.newRow user now draw).id = draw.id from rfl, hrows, ← hlater.tokenHash, ← hsel.1]
  rw [← hlater.userID] at huser
  exact .rotated now hcur hsel.2 huser henabled hnew'

theorem presentedAgain_rows {hash : String} (row : RefreshToken) (revokedAt : ℤ) (next : ℕ) :
    RowsStep svc db ⟨.rotateRefreshOnce hash draw,
        Outcome.err (svc.presentedAgain db row revokedAt next now)⟩
      (svc.presentedAgain db row revokedAt next now).2.refreshTokens := by
  unfold presentedAgain
  dsimp only
  split
  · split
    · exact .refused
    split
    · exact .revoked (by simp [Event.Grants, Outcome.err]) _ now
    split <;> exact .refused
  · exact .revoked (by simp [Event.Grants, Outcome.err]) _ now

theorem rotateRefreshOnce_rows (hw : w.Evolved) (hold : w.Saw old) (hash : String) (now : ℤ)
    (draw : Draw) :
    RowsStep svc w.db ⟨.rotateRefreshOnce hash draw,
        Outcome.err (svc.rotateRefreshOnce old w.db hash now draw)⟩
      (svc.rotateRefreshOnce old w.db hash now draw).2.refreshTokens := by
  unfold rotateRefreshOnce
  split
  · exact .refused
  rename_i row hfound
  have hrow := mem_of_find?_eq_some hfound
  have hhash : row.tokenHash = hash := by simpa using List.find?_some hfound
  split
  · exact .refused
  rename_i user huser
  split
  · exact .refused
  rename_i henabled
  split
  · exact .refused
  split
  · exact .refused
  · exact presentedAgain_rows _ _ _
  · subst hhash
    exact swap_step hw hold hrow huser (by simpa using henabled)

/-- A request that only revokes rows: no one gets a refresh token by it. -/
def Event.Other (e : Event) : Prop :=
  match e.request with
  | .startSession _ _ => False
  | .rotateRefreshOnce _ _ => False
  | _ => True

theorem Event.Other.not_grants (h : e.Other) : ¬ e.Grants := by
  rintro (⟨user, draw, rfl⟩ | ⟨hash, draw, rfl⟩) <;> exact h

/-- What a consumed token was when it was read, and what is when it is used up. -/
structure Consumes (plain db : DB) (hash : String) (purpose : TokenPurpose) (now : ℤ)
    (token : OneTimeToken) (locked : User) (db' : DB) : Prop where
  read : token ∈ plain.oneTimeTokens
  tokenHash : token.tokenHash = hash
  purpose : token.purpose = purpose
  user : db.lockUserTx token.userID = some locked
  enabled : locked.disabled = false
  sent : token.sentAt.isSome = true
  unexpired : now < token.expiresAt
  /-- The row as it is now is delivered and unused. -/
  current : ∃ cur ∈ db.oneTimeTokens, cur.id = token.id ∧ cur.sentAt.isSome = true ∧ cur.usedAt = none
  db' : db' = db.useWhere (fun t => decide (t.id = token.id) && t.sentAt.isSome) now

theorem consumeOneTimeToken_eq_ok {hash : String} {token : OneTimeToken}
    (h : Service.consumeOneTimeToken plain db hash purpose now = .ok (token, locked, db')) :
    Consumes plain db hash purpose now token locked db' := by
  unfold consumeOneTimeToken at h
  split at h
  · cases h
  rename_i found hfound
  split at h
  · cases h
  rename_i user huser
  split_ifs at h with henabled hdead haffected hemail hemail
  all_goals
    simp only [Except.ok.injEq, Prod.mk.injEq] at h
    obtain ⟨rfl, rfl, rfl⟩ := h
    have hsel := List.find?_some hfound
    simp only [Bool.and_eq_true, decide_eq_true_eq] at hsel
    simp only [not_or, not_le] at hdead
    refine ⟨mem_of_find?_eq_some hfound, hsel.1, hsel.2, huser, by simpa using henabled,
      by simpa [Option.isSome_iff_ne_none] using hdead.1, hdead.2.2, ?_, rfl⟩
    have hpos : 0 < db.oneTimeTokens.countP fun t =>
        decide (t.id = found.id) && t.sentAt.isSome && t.usedAt.isNone := by
      rw [not_not, affected] at haffected
      omega
    obtain ⟨cur, hcur, hsel'⟩ := countP_pos_iff.1 hpos
    simp only [Bool.and_eq_true, decide_eq_true_eq, Option.isNone_iff_eq_none] at hsel'
    exact ⟨cur, hcur, hsel'.1.1, hsel'.1.2, hsel'.2⟩

end Requests

variable {svc : Service}

/-! ## Users -/

/-- What a request can do to a user. -/
structure UserLater (w : World) (e : Event) (u u' : User) : Prop where
  id : u'.id = u.id
  hash : u'.passwordHash = u.passwordHash ∨ w.FreshHash u'.passwordHash
  disabled : u'.disabled = u.disabled ∨ e = ⟨.setUserState u.id u'.disabled, none⟩

/-- What a request can do to the users. -/
def UsersStep (w : World) (e : Event) (users : List User) : Prop :=
  ∃ f : User → User, users = w.db.users.map f ∧ ∀ u ∈ w.db.users, UserLater w e u (f u)

section Users

variable {svc : Service} {w : World} {e : Event} {plain : DB} {now : ℤ}

theorem UsersStep.kept : UsersStep w e w.db.users :=
  ⟨id, (map_id _).symm, fun _ _ => ⟨rfl, .inl rfl, .inl rfl⟩⟩

/-- An update of one user. -/
theorem UsersStep.update {userID : ℕ} {f : User → User}
    (h : ∀ u ∈ w.db.users, u.id = userID → UserLater w e u (f u)) :
    UsersStep w e (w.db.updateUser userID f).users := by
  refine ⟨_, rfl, fun u hu => ?_⟩
  by_cases hid : u.id = userID
  · rw [if_pos (by simpa using hid)]
    exact h u hu hid
  · rw [if_neg (by simpa using hid)]
    exact ⟨rfl, .inl rfl, .inl rfl⟩

end Users

/-! ## One-time tokens -/

section Tokens

variable {tokens tokens' : List OneTimeToken}

/-- Some tokens are used up. -/
def UsesUp (tokens tokens' : List OneTimeToken) : Prop :=
  ∃ f : OneTimeToken → OneTimeToken, tokens' = tokens.map f ∧
    ∀ t ∈ tokens, f t = t ∨ (t.usedAt = none ∧ ∃ now, f t = { t with usedAt := some now })

theorem UsesUp.refl (tokens : List OneTimeToken) : UsesUp tokens tokens :=
  ⟨id, (map_id _).symm, fun _ _ => .inl rfl⟩

theorem UsesUp.trans {tokens'' : List OneTimeToken} (h : UsesUp tokens tokens')
    (h' : UsesUp tokens' tokens'') : UsesUp tokens tokens'' := by
  obtain ⟨f, rfl, hf⟩ := h
  obtain ⟨g, rfl, hg⟩ := h'
  refine ⟨g ∘ f, map_map, fun t ht => ?_⟩
  have hgt := hg (f t) (mem_map_of_mem ht)
  rcases hf t ht with hsame | ⟨hunused, now, hused⟩
  · rw [Function.comp_apply, hsame]
    rwa [hsame] at hgt
  · rcases hgt with hsame | ⟨hunused', -⟩
    · exact .inr ⟨hunused, now, by rw [Function.comp_apply, hsame, hused]⟩
    · simp [hused] at hunused'

theorem usesUp_useWhere (db : DB) (p : OneTimeToken → Bool) (now : ℤ) :
    UsesUp db.oneTimeTokens (db.useWhere p now).oneTimeTokens := by
  refine ⟨_, rfl, fun t _ => ?_⟩
  dsimp only
  split
  · rename_i hsel
    exact .inr ⟨by simp_all, now, rfl⟩
  · exact .inl rfl

end Tokens

/-! ## Requests that end things -/

/-- What a request does that puts no token into anyone's hands: it revokes refresh tokens, updates
users and uses one-time tokens up. -/
structure Ends (w : World) (e : Event) (db : DB) : Prop where
  rows : ∃ p now, db.refreshTokens = (w.db.revokeWhere p now).refreshTokens
  users : UsersStep w e db.users
  tokens : UsesUp w.db.oneTimeTokens db.oneTimeTokens

/-- A request of this kind. -/
def Event.Quiet (e : Event) : Prop :=
  match e.request with
  | .startSession _ _ | .rotateRefreshOnce _ _ => False
  | .issueOneTimeToken _ _ _ | .activateToken _ | .withdrawToken _ => False
  | _ => True

section Quiet

variable {svc : Service} {w : World} {e : Event} {plain db db' : DB} {now : ℤ} {hash : String}
  {userID requester : ℕ}

theorem Ends.refl : Ends w e w.db :=
  ⟨⟨fun _ => false, 0, by rw [revokeWhere_false]⟩, .kept, .refl _⟩

theorem Ends.revoke (h : Ends w e db) (hrows : db.refreshTokens = w.db.refreshTokens)
    (p : RefreshToken → Bool) (now : ℤ) : Ends w e (db.revokeWhere p now) :=
  ⟨⟨p, now, by rw [DB.revokeWhere, hrows]; rfl⟩, h.users, h.tokens⟩

theorem Ends.use (h : Ends w e db) (p : OneTimeToken → Bool) (now : ℤ) :
    Ends w e (db.useWhere p now) :=
  ⟨h.rows, h.users, h.tokens.trans (usesUp_useWhere db p now)⟩

theorem Ends.update (h : Ends w e db) (husers : db.users = w.db.users) {f : User → User}
    (hf : ∀ u ∈ w.db.users, u.id = userID → UserLater w e u (f u)) :
    Ends w e (db.updateUser userID f) := by
  refine ⟨h.rows, ?_, h.tokens⟩
  rw [DB.updateUser, husers]
  exact .update hf

theorem revokeRefresh_ends : Ends w e (Service.revokeRefresh plain w.db hash now).2 := by
  unfold revokeRefresh
  split
  · exact .refl
  · exact Ends.refl.revoke rfl _ _

theorem revokeSessionAs_ends {id : String} {now' : ℤ} :
    Ends w e (svc.revokeSessionAs plain w.db userID requester id now now').2 := by
  unfold revokeSessionAs
  dsimp only
  repeat' split
  all_goals first
    | exact .refl
    | exact Ends.refl.revoke rfl _ _

theorem revokeAllSessionsAs_ends :
    Ends w e (Service.revokeAllSessionsAs plain w.db userID requester now).2 := by
  unfold revokeAllSessionsAs
  split
  · exact .refl
  split
  · exact .refl
  · exact Ends.refl.revoke rfl _ _

theorem revokeOtherSessions_ends :
    Ends w e (Service.revokeOtherSessions plain w.db userID requester now).2 := by
  unfold revokeOtherSessions
  split
  · exact .refl
  split
  · exact .refl
  · exact Ends.refl.revoke rfl _ _

theorem setUserState_ends {disable : Bool} {check : User → Option Err} :
    Ends w ⟨.setUserState userID disable,
        Outcome.err (Service.setUserState w.db userID disable check now)⟩
      (Service.setUserState w.db userID disable check now).2 := by
  unfold setUserState
  split
  · exact .refl
  split
  · exact .refl
  split
  · exact .refl
  split
  · rename_i hdisable
    refine Ends.refl.update rfl fun u _ hid => ⟨rfl, .inl rfl, .inr ?_⟩
    simp only [Bool.not_eq_true'] at hdisable
    simp [hdisable, hid, User.disabled, Outcome.err]
  · rename_i hdisable
    refine Ends.use (Ends.revoke ?_ (by rfl) _ _) _ _
    refine Ends.refl.update rfl fun u _ hid => ⟨rfl, .inl rfl, .inr ?_⟩
    simp only [Bool.not_eq_true', Bool.not_eq_false] at hdisable
    simp [hdisable, hid, User.disabled, Outcome.err]

theorem changePassword_ends {before : DB} {current : String} {keepOtherSessions : Bool}
    (hfresh : w.FreshHash hash) : Ends w e (svc.changePassword before plain w.db userID current hash
      keepOtherSessions requester now).2 := by
  unfold changePassword
  split
  · exact .refl
  rename_i user huser
  split
  · exact .refl
  split
  · exact .refl
  split
  · exact .refl
  split
  · exact .refl
  split
  · exact .refl
  have hupdate : Ends w e ((w.db.updateUser user.id fun u =>
      { u with passwordHash := hash }).voidPasswordBoundTokensTx user.id 0 now) := by
    refine Ends.use ?_ _ _
    exact Ends.refl.update rfl fun u _ _ => ⟨rfl, .inr hfresh, .inl rfl⟩
  dsimp only
  split
  · exact hupdate
  · split <;> exact hupdate.revoke rfl _ _

theorem consumeReset_ends {screen : DB} {newHash : String} {screened : ℤ}
    (hfresh : w.FreshHash newHash) :
    Ends w e (svc.consumeReset screen plain w.db hash newHash screened now).2 := by
  unfold consumeReset
  split
  · exact .refl
  split
  · exact .refl
  rename_i token locked db₁ hconsumed
  obtain rfl := (consumeOneTimeToken_eq_ok hconsumed).db'
  dsimp only
  split
  · refine Ends.use ?_ _ _
    exact (Ends.refl.use _ _).update rfl fun u _ _ => ⟨rfl, .inr hfresh, .inl rfl⟩
  · refine Ends.revoke (Ends.use ?_ _ _) (by rfl) _ _
    exact (Ends.refl.use _ _).update rfl fun u _ _ => ⟨rfl, .inr hfresh, .inl rfl⟩

theorem consumeVerification_ends : Ends w e (svc.consumeVerification plain w.db hash now).2 := by
  unfold consumeVerification
  split
  · exact .refl
  rename_i token locked db₁ hconsumed
  obtain rfl := (consumeOneTimeToken_eq_ok hconsumed).db'
  split
  · exact Ends.refl.use _ _
  · exact (Ends.refl.use _ _).update rfl fun u _ _ => ⟨rfl, .inl rfl, .inl rfl⟩

theorem consumeEmailChange_ends : Ends w e (svc.consumeEmailChange plain w.db hash now).2 := by
  unfold consumeEmailChange
  split
  · exact .refl
  rename_i token locked db₁ hconsumed
  obtain rfl := (consumeOneTimeToken_eq_ok hconsumed).db'
  split
  · exact .refl
  · refine Ends.use ?_ _ _
    exact (Ends.refl.use _ _).update rfl fun u _ _ => ⟨rfl, .inl rfl, .inl rfl⟩

/-- **What a quiet request can do to the tables.** -/
theorem Service.Step.ends {w' : World} (h : svc.Step w e w') (he : e.Quiet) : Ends w e w'.db := by
  cases h with
  | revokeRefresh now hold => exact revokeRefresh_ends
  | revokeSessionAs now now' hold => exact revokeSessionAs_ends
  | revokeAllSessionsAs now hold => exact revokeAllSessionsAs_ends
  | revokeOtherSessions now hold => exact revokeOtherSessions_ends
  | setUserState check now => exact setUserState_ends
  | changePassword current now hbefore hold hfresh => exact changePassword_ends hfresh
  | consumeReset screened now hscreen hold hfresh => exact consumeReset_ends hfresh
  | consumeVerification now hold => exact consumeVerification_ends
  | consumeEmailChange now hold => exact consumeEmailChange_ends
  | failed => exact .refl
  | _ => exact he.elim

end Quiet

/-! ## Requests that hand a token out -/

section Frames

variable {plain db : DB} {now : ℤ} {draw : Draw}

/-- A login leaves the users and the one-time tokens alone. -/
theorem startSession_frame {user : User} :
    (svc.startSession db user now draw).2.users = db.users ∧
      (svc.startSession db user now draw).2.oneTimeTokens = db.oneTimeTokens := by
  unfold startSession
  split
  · exact ⟨rfl, rfl⟩
  split
  · exact ⟨rfl, rfl⟩
  split
  · exact ⟨rfl, rfl⟩
  split
  · exact ⟨rfl, rfl⟩
  · rename_i hissued
    obtain ⟨-, -, rfl⟩ := issueTokens_eq_ok hissued
    exact ⟨rfl, rfl⟩

/-- So does a rotation. -/
theorem rotateRefreshOnce_frame {hash : String} :
    (svc.rotateRefreshOnce plain db hash now draw).2.users = db.users ∧
      (svc.rotateRefreshOnce plain db hash now draw).2.oneTimeTokens = db.oneTimeTokens := by
  have hswap : ∀ row user, (svc.swap db row user now draw).2.users = db.users ∧
      (svc.swap db row user now draw).2.oneTimeTokens = db.oneTimeTokens := by
    intro row user
    unfold Service.swap
    split
    · exact ⟨rfl, rfl⟩
    split
    · exact ⟨rfl, rfl⟩
    rename_i hissued
    obtain ⟨-, -, rfl⟩ := issueTokens_eq_ok hissued
    split <;> exact ⟨rfl, rfl⟩
  have hagain : ∀ row revokedAt next,
      (svc.presentedAgain db row revokedAt next now).2.users = db.users ∧
        (svc.presentedAgain db row revokedAt next now).2.oneTimeTokens = db.oneTimeTokens := by
    intro row revokedAt next
    unfold Service.presentedAgain
    dsimp only
    repeat' split
    all_goals exact ⟨rfl, rfl⟩
  unfold Service.rotateRefreshOnce
  repeat' split
  all_goals first
    | exact ⟨rfl, rfl⟩
    | exact hagain _ _ _
    | exact hswap _ _

/-- A send leaves the users and the refresh tokens alone. -/
theorem issueOneTimeToken_frame {userID : ℕ} {f : Flow} :
    (svc.issueOneTimeToken plain db userID f now draw).2.users = db.users ∧
      (svc.issueOneTimeToken plain db userID f now draw).2.refreshTokens = db.refreshTokens := by
  unfold issueOneTimeToken
  repeat' split
  all_goals exact ⟨rfl, rfl⟩

theorem activateToken_frame {token : OneTimeToken} :
    (Service.activateToken db token now).2.users = db.users ∧
      (Service.activateToken db token now).2.refreshTokens = db.refreshTokens := by
  unfold activateToken
  dsimp only
  repeat' split
  all_goals exact ⟨rfl, rfl⟩

end Frames

/-- **What a request can do to the refresh tokens.** -/
theorem Service.Step.rows {w' : World} (h : svc.Step w e w') (hw : w.Evolved) :
    RowsStep svc w.db e w'.db.refreshTokens := by
  by_cases he : e.Quiet
  · obtain ⟨p, now, hrows⟩ := (h.ends he).rows
    rw [hrows]
    refine .revoked ?_ p now
    rintro (⟨user, draw, rfl⟩ | ⟨hash, draw, rfl⟩) <;> exact he
  cases h with
  | startSession now hold huser => exact startSession_rows _
  | rotateRefreshOnce now hold => exact rotateRefreshOnce_rows hw hold _ _ _
  | issueOneTimeToken now hold hfresh =>
    rw [World.commit_db, issueOneTimeToken_frame.2]
    exact .kept (Event.Other.not_grants trivial)
  | activateToken now hold htoken =>
    rw [World.commit_db, activateToken_frame.2]
    exact .kept (Event.Other.not_grants trivial)
  | withdrawToken hold htoken => exact .kept (Event.Other.not_grants trivial)
  | failed => exact .refused
  | _ => exact absurd trivial he

/-- **What a request can do to the users.** -/
theorem Service.Step.users {w' : World} (h : svc.Step w e w') : UsersStep w e w'.db.users := by
  by_cases he : e.Quiet
  · exact (h.ends he).users
  cases h with
  | startSession now hold huser =>
    rw [World.commit_db, startSession_frame.1]
    exact .kept
  | rotateRefreshOnce now hold =>
    rw [World.commit_db, rotateRefreshOnce_frame.1]
    exact .kept
  | issueOneTimeToken now hold hfresh =>
    rw [World.commit_db, issueOneTimeToken_frame.1]
    exact .kept
  | activateToken now hold htoken =>
    rw [World.commit_db, activateToken_frame.1]
    exact .kept
  | withdrawToken | failed => exact .kept
  | _ => exact absurd trivial he

end Gombit.Auth
