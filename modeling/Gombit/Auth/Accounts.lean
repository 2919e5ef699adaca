import Gombit.Auth.Chains

/-!
# Users over time

What holds of the users in every state that requests lead to.

* `accounts_run`: each user has one row, each session has its user, and a disabled user has no
  active session.
* `outdated_run`: once a password hash was replaced by a new one, the user never has a hash again
  that was seen before.
* `disabled_run`: a disabled user stays disabled until someone enables them.
-/

namespace Gombit.Auth

open Rows

variable {svc : Service} {w w' w₀ : World} {e : Event} {es : List Event} {users : List User}

/-! ## One request -/

theorem UsersStep.of_lock (h : UsersStep w e users) {id : ℕ} {u : User}
    (hu : w.db.lockUserTx id = some u) :
    ∃ u', byKey User.id users id = some u' ∧ UserLater w e u u' := by
  obtain ⟨f, rfl, hf⟩ := h
  refine ⟨f u, ?_, hf u (mem_of_byKey hu).1⟩
  rw [byKey_map fun u hu => (hf u hu).id, ← DB.lockUserTx, hu]
  rfl

theorem UsersStep.lock_inv (h : UsersStep w e users) {id : ℕ} {u' : User}
    (hu' : byKey User.id users id = some u') :
    ∃ u, w.db.lockUserTx id = some u ∧ UserLater w e u u' := by
  obtain ⟨f, rfl, hf⟩ := h
  rw [byKey_map fun u hu => (hf u hu).id, Option.map_eq_some_iff] at hu'
  obtain ⟨u, hu, rfl⟩ := hu'
  exact ⟨u, hu, hf u (mem_of_byKey hu).1⟩

theorem UsersStep.keyed (h : UsersStep w e users) (hw : Keyed User.id w.db.users) :
    Keyed User.id users := by
  obtain ⟨f, rfl, hf⟩ := h
  have hsame : (w.db.users.map f).map User.id = w.db.users.map User.id := by
    rw [List.map_map]
    exact List.map_congr_left fun u hu => (hf u hu).id
  rwa [Keyed, hsame]

variable {db : DB} {r : RefreshToken} {userID : ℕ}

/-- What `revokeAllTx` leaves of the user's rows. -/
theorem revokedAt_of_mem_revokeWhere {p : RefreshToken → Bool} {now : ℤ}
    (h : r ∈ (db.revokeWhere p now).refreshTokens)
    (hp : ∀ r' ∈ db.refreshTokens, r'.id = r.id → r'.userID = r.userID → p r' = true) :
    r.revokedAt ≠ none := by
  obtain ⟨r', hr', rfl⟩ := mem_updateWhere.1 h
  split
  · simp
  · rename_i hsel
    have hpr' := hp r' hr' (by rw [if_neg hsel]) (by rw [if_neg hsel])
    simpa [hpr', RefreshToken.active, Option.isSome_iff_ne_none] using hsel

/-- Disabling a user ends every session of the user. -/
theorem setUserState_disables {check : User → Option Err} {now : ℤ}
    (hdisabled : ∀ r ∈ db.refreshTokens, ∀ u, db.lockUserTx r.userID = some u →
      u.disabled = true → r.revokedAt ≠ none)
    (hok : Outcome.err (Service.setUserState db userID true check now) = none)
    (hr : r ∈ (Service.setUserState db userID true check now).2.refreshTokens)
    (huser : r.userID = userID) : r.revokedAt ≠ none := by
  unfold Service.setUserState at hok hr
  split at hr
  · rename_i hnone
    simp [hnone, Outcome.err] at hok
  rename_i locked hlocked
  split at hr
  · rename_i e he
    simp [hlocked, he, Outcome.err] at hok
  split at hr
  · rename_i hsame
    exact hdisabled r hr locked (huser ▸ hlocked) hsame
  split at hr
  · rename_i htrue
    simp at htrue
  · exact revokedAt_of_mem_revokeWhere (p := fun r => decide (r.userID = userID)) hr
      fun r' _ _ hid => by simp [hid, huser]

/-! ## Runs -/

/-- Each user has one row, each session has its user, and a disabled user has no active session. -/
structure World.Accounts (w : World) : Prop where
  keyed : Keyed User.id w.db.users
  owner : ∀ r ∈ w.db.refreshTokens, ∃ u, w.db.lockUserTx r.userID = some u
  disabled : ∀ r ∈ w.db.refreshTokens, ∀ u, w.db.lockUserTx r.userID = some u →
    u.disabled = true → r.revokedAt ≠ none

theorem World.Init.accounts (h : w.Init) : w.Accounts where
  keyed := h.users
  owner := by simp [h.refreshTokens]
  disabled := by simp [h.refreshTokens]

/-- The rows after a request are later versions of rows there were, or new, of a user who is not
disabled. -/
theorem RowsStep.mem {rows : List RefreshToken} {r' : RefreshToken}
    (h : RowsStep svc db e rows) (hr' : r' ∈ rows) :
    (∃ r ∈ db.refreshTokens, r'.userID = r.userID ∧ (r.revokedAt ≠ none → r'.revokedAt ≠ none)) ∨
      ∃ u, db.lockUserTx r'.userID = some u ∧ u.disabled = false ∧ e.Grants := by
  cases h with
  | revoked hnot p now =>
    obtain ⟨r, hr, rfl⟩ := mem_updateWhere.1 hr'
    refine .inl ⟨r, hr, ?_⟩
    split <;> simp
  | @started user locked now draw hlocked hactive hhash hnew =>
    rcases List.mem_append.1 hr' with hr' | hr'
    · exact .inl ⟨r', hr', rfl, id⟩
    · rw [List.mem_singleton.1 hr']
      have hid : (svc.newRow locked now draw).userID = user.id := lockUserTx_id hlocked
      exact .inr ⟨locked, by rw [hid, hlocked], hactive, .inl ⟨_, _, rfl⟩⟩
  | @rotated row user now draw hrow hactive huser henabled hnew =>
    rcases List.mem_append.1 hr' with hr' | hr'
    · obtain ⟨r, hr, rfl⟩ := mem_updateWhere.1 hr'
      refine .inl ⟨r, hr, ?_⟩
      split <;> simp [RefreshToken.rotate]
    · rw [List.mem_singleton.1 hr']
      have hid : (svc.newRow user now draw).userID = row.userID := lockUserTx_id huser
      exact .inr ⟨user, by rw [hid, huser], henabled, .inr ⟨_, _, rfl⟩⟩

/-- After a request that disables a user, the user has no active session. -/
theorem Service.Step.disables (h : svc.Step w e w') (hw : w.Accounts)
    (he : e = ⟨.setUserState userID true, none⟩) :
    ∀ r ∈ w'.db.refreshTokens, r.userID = userID → r.revokedAt ≠ none := by
  cases h with
  | setUserState check now =>
    simp only [Event.mk.injEq, Request.setUserState.injEq] at he
    obtain ⟨⟨rfl, rfl⟩, hok⟩ := he
    exact fun r hr huser => setUserState_disables hw.disabled hok hr huser
  | failed => simp at he
  | _ => simp at he

theorem World.Accounts.step (hw : w.Accounts) (hsound : w.Sound) (h : svc.Step w e w') :
    w'.Accounts := by
  have hrows := h.rows hsound.toEvolved
  refine ⟨h.users.keyed hw.keyed, fun r' hr' => ?_, fun r' hr' u' hu' hdisabled => ?_⟩
  · have hlock : ∃ u, w.db.lockUserTx r'.userID = some u := by
      rcases hrows.mem hr' with ⟨r, hr, huser, -⟩ | ⟨u, hu, -, -⟩
      · rw [huser]
        exact hw.owner r hr
      · exact ⟨u, hu⟩
    obtain ⟨u, hu⟩ := hlock
    obtain ⟨u', hu', -⟩ := h.users.of_lock hu
    exact ⟨u', hu'⟩
  · obtain ⟨u, hu, hlater⟩ := h.users.lock_inv hu'
    rcases hlater.disabled with hsame | hset
    · rcases hrows.mem hr' with ⟨r, hr, huser, hkept⟩ | ⟨v, hv, henabled, -⟩
      · exact hkept (hw.disabled r hr u (huser ▸ hu) (hsame ▸ hdisabled))
      · -- a new row, of a user who is enabled
        rw [hv, Option.some.injEq] at hu
        rw [hsame, ← hu, henabled] at hdisabled
        cases hdisabled
    · rw [hdisabled] at hset
      exact h.disables hw hset r' hr' (lockUserTx_id hu).symm

theorem accounts_run (h₀ : w₀.Init) (h : Run svc.Step w₀ es w) : w.Accounts := by
  have hboth : w.Sound ∧ w.Accounts := by
    refine h.preserves (I := fun w => w.Sound ∧ w.Accounts) ?_ ⟨h₀.sound, h₀.accounts⟩
    intro s e s' hstep ⟨hs, ha⟩
    exact ⟨hs.step hstep, ha.step hs hstep⟩
  exact hboth.2

/-- What a plain read can see, it can see ever after. -/
theorem saw_run (h : Run svc.Step w es w') {old : DB} (hold : w.Saw old) : w'.Saw old :=
  h.preserves (I := fun w => w.Saw old)
    (fun s e s' hstep hs => by rw [hstep.commit, World.saw_commit]; exact .inr hs) hold

/-- Once the user has a hash that no one had before `w`, every later hash of the user is such. -/
theorem outdated_run {w₁ w₂ : World} (h : Run svc.Step w₁ es w₂)
    (hsaw : ∀ old, w.Saw old → w₁.Saw old)
    (hfresh : ∀ u, w₁.db.lockUserTx userID = some u → w.FreshHash u.passwordHash) :
    ∀ u, w₂.db.lockUserTx userID = some u → w.FreshHash u.passwordHash := by
  have hboth := h.preserves (I := fun w' => (∀ old, w.Saw old → w'.Saw old) ∧
    ∀ u, w'.db.lockUserTx userID = some u → w.FreshHash u.passwordHash) ?_ ⟨hsaw, hfresh⟩
  · exact hboth.2
  intro s e s' hstep ⟨hs, hf⟩
  refine ⟨fun old hold => saw_run (.single hstep) (hs old hold), fun u' hu' => ?_⟩
  obtain ⟨u, hu, hlater⟩ := hstep.users.lock_inv hu'
  rcases hlater.hash with hsame | hnew
  · rw [hsame]
    exact hf u hu
  · exact fun old hold => hnew old (hs old hold)

/-- The user is disabled. -/
def DB.Disabled (db : DB) (userID : ℕ) : Prop :=
  ∃ u, db.lockUserTx userID = some u ∧ u.disabled = true

/-- A disabled user stays disabled until someone enables them. -/
theorem disabled_run (h : Run svc.Step w es w')
    (hes : ∀ e ∈ es, e ≠ ⟨.setUserState userID false, none⟩) (hw : w.db.Disabled userID) :
    w'.db.Disabled userID := by
  refine h.preserves_while (I := fun w => w.db.Disabled userID) ?_ hes hw
  rintro s e s' hstep he ⟨u, hu, hdisabled⟩
  obtain ⟨u', hu', hlater⟩ := hstep.users.of_lock hu
  refine ⟨u', hu', ?_⟩
  rcases hlater.disabled with hsame | hset
  · rw [hsame, hdisabled]
  · rw [lockUserTx_id hu] at hset
    cases hd : u'.disabled with
    | true => rfl
    | false => exact absurd (hd ▸ hset) he

end Gombit.Auth
