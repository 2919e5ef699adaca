import Gombit.Auth.Accounts

/-!
# A rotated token comes back

What `rotateRefreshOnce` answers to a token when no one else writes: one lemma for each of the
cases it tells apart, and `refresh_reuse`, which says when it ends the user's sessions and when it
only refuses.

An expired token of a disabled user is refused as any token of that user is, whether it has a
successor or not (`rotation_raced_disabled`).
-/

namespace Gombit.Auth

open Rows

variable {svc : Service} {db : DB} {row : RefreshToken} {user : User} {now : ℤ} {draw : Draw}

/-! ## The cases -/

/-- The token was rotated so short a time ago that a second presentation may be a race. -/
def Service.WithinGrace (svc : Service) (rotatedAt now : ℤ) : Prop :=
  0 < svc.refreshReuseGrace ∧ now - svc.refreshReuseGrace < rotatedAt

/-- The presentation of a token that is taken for a theft. -/
structure Service.Reused (svc : Service) (db : DB) (row : RefreshToken) (now : ℤ) : Prop where
  enabled : ¬ db.Disabled row.userID
  unexpired : now < row.expiresAt
  rotated : ∃ next rotatedAt, row.replacedBy = some next ∧ row.revokedAt = some rotatedAt ∧
    (¬ svc.WithinGrace rotatedAt now ∨ ∃ s, db.refreshToken next = some s ∧ s.replacedBy ≠ none)

/-- The presentation of a token that can be exchanged. -/
structure Rotatable (db : DB) (row : RefreshToken) (now : ℤ) : Prop where
  enabled : ¬ db.Disabled row.userID
  unexpired : now < row.expiresAt
  active : row.active = true

/-- The token has a successor, and either is expired or its successor is live within the grace. -/
def Service.Raced (svc : Service) (db : DB) (row : RefreshToken) (now : ℤ) : Prop :=
  ∃ next, row.replacedBy = some next ∧ (row.expiresAt ≤ now ∨
    ∃ rotatedAt s, row.revokedAt = some rotatedAt ∧ svc.WithinGrace rotatedAt now ∧
      db.refreshToken next = some s ∧ s.active = true ∧ now < s.expiresAt)

theorem refreshByHash_eq (h : (db.refreshTokens.map RefreshToken.tokenHash).Nodup)
    (hrow : row ∈ db.refreshTokens) : db.refreshByHash row.tokenHash = some row := by
  obtain ⟨r, hr⟩ : ∃ r, db.refreshByHash row.tokenHash = some r := by
    rw [← Option.isSome_iff_exists, DB.refreshByHash, List.find?_isSome]
    exact ⟨row, hrow, by simp⟩
  have hhash : r.tokenHash = row.tokenHash := by simpa using List.find?_some hr
  rw [hr, List.inj_on_of_nodup_map h (List.mem_of_find?_eq_some hr) hrow hhash]

/-- A token that no row has is refused. -/
theorem rotateRefreshOnce_unknown {hash : String}
    (h : ∀ r ∈ db.refreshTokens, r.tokenHash ≠ hash) :
    svc.rotateRefreshOnce db db hash now draw = (.error .invalidRefreshToken, db) := by
  have hnone : db.refreshByHash hash = none := by
    rw [DB.refreshByHash, List.find?_eq_none]
    intro r hr
    simpa using h r hr
  rw [Service.rotateRefreshOnce, hnone]

section Found

variable (hfound : db.refreshByHash row.tokenHash = some row)
  (huser : db.lockUserTx row.userID = some user)

include hfound huser

theorem rotateRefreshOnce_disabled (hdisabled : user.disabled = true) :
    svc.rotateRefreshOnce db db row.tokenHash now draw = (.error .invalidRefreshToken, db) := by
  simp only [Service.rotateRefreshOnce, hfound, huser, hdisabled, if_true]

variable (henabled : user.disabled = false)

include henabled

/-- An expired token is refused, and the answer tells whether it was rotated. -/
theorem rotateRefreshOnce_expired (hkeyed : Keyed RefreshToken.id db.refreshTokens)
    (hrow : row ∈ db.refreshTokens) (hexpired : row.expiresAt ≤ now) :
    svc.rotateRefreshOnce db db row.tokenHash now draw =
      (.error (if row.replacedBy.isSome then .rotationRaced else .invalidRefreshToken), db) := by
  have hsuccessor : Service.hasSuccessorTx db row.id = .ok row.replacedBy.isSome := by
    rw [Service.hasSuccessorTx, DB.refreshToken, hkeyed.byKey_eq hrow]
  simp only [Service.rotateRefreshOnce, hfound, huser, henabled, Bool.false_eq_true, if_false,
    if_pos hexpired, hsuccessor, ite_self, Service.lostRotation]

variable (hunexpired : now < row.expiresAt)

include hunexpired

/-- A token that was revoked, not rotated, is refused. -/
theorem rotateRefreshOnce_revoked (hrevoked : row.revokedAt ≠ none) (hlink : row.replacedBy = none) :
    svc.rotateRefreshOnce db db row.tokenHash now draw = (.error .invalidRefreshToken, db) := by
  obtain ⟨revokedAt, hrevoked⟩ := Option.ne_none_iff_exists'.1 hrevoked
  simp only [Service.rotateRefreshOnce, hfound, huser, henabled, Bool.false_eq_true, if_false,
    if_neg (not_le.2 hunexpired), hrevoked, hlink]

theorem rotateRefreshOnce_again {next : ℕ} {rotatedAt : ℤ} (hnext : row.replacedBy = some next)
    (hrotated : row.revokedAt = some rotatedAt) :
    svc.rotateRefreshOnce db db row.tokenHash now draw =
      svc.presentedAgain db row rotatedAt next now := by
  simp only [Service.rotateRefreshOnce, hfound, huser, henabled, Bool.false_eq_true, if_false,
    if_neg (not_le.2 hunexpired), hrotated, hnext]

/-- Reuse ends every session of the user. -/
theorem rotateRefreshOnce_reused (h : svc.Reused db row now) :
    svc.rotateRefreshOnce db db row.tokenHash now draw =
      (.error .refreshReuse, db.revokeAllTx row.userID now) := by
  obtain ⟨next, rotatedAt, hnext, hrotated, hcase⟩ := h.rotated
  rw [rotateRefreshOnce_again hfound huser henabled hunexpired hnext hrotated,
    Service.presentedAgain]
  by_cases hgrace : svc.WithinGrace rotatedAt now
  · obtain ⟨s, hs, hlink⟩ := hcase.resolve_left (not_not.2 hgrace)
    have hsome : s.replacedBy.isSome = true := Option.isSome_iff_ne_none.2 hlink
    simp only [Service.WithinGrace] at hgrace
    simp only [hgrace, and_self, if_true, hs, hsome]
  · exact if_neg hgrace

/-- Within the grace, with a successor that was not rotated itself, the token is refused. -/
theorem rotateRefreshOnce_graced {next : ℕ} {rotatedAt : ℤ} {s : RefreshToken}
    (hnext : row.replacedBy = some next) (hrotated : row.revokedAt = some rotatedAt)
    (hgrace : svc.WithinGrace rotatedAt now) (hs : db.refreshToken next = some s)
    (hlink : s.replacedBy = none) :
    svc.rotateRefreshOnce db db row.tokenHash now draw =
      (.error (if s.active = true ∧ now < s.expiresAt then .rotationRaced
        else .invalidRefreshToken), db) := by
  rw [rotateRefreshOnce_again hfound huser henabled hunexpired hnext hrotated,
    Service.presentedAgain]
  simp only [Service.WithinGrace] at hgrace
  simp only [hgrace, and_self, if_true, hs, hlink, Option.isSome_none, Bool.false_eq_true, if_false]
  change (if s.active = true ∧ now < s.expiresAt then _ else _) = _
  split
  · rfl
  · rfl

/-- With no one else at work, an active token does not lose its rotation. -/
theorem rotateRefreshOnce_active (svc : Service) (draw : Draw) (hkeyed : Keyed RefreshToken.id db.refreshTokens)
    (hrow : row ∈ db.refreshTokens) (hactive : row.active = true) :
    (svc.rotateRefreshOnce db db row.tokenHash now draw).1 ≠ .error .rotationRaced := by
  have hrevoked : row.revokedAt = none := by simpa [RefreshToken.active] using hactive
  have hone : affected (fun r => decide (r.id = row.id) && r.active) db.refreshTokens = 1 := by
    apply le_antisymm
    · exact hkeyed.affected_le_one fun r hr => by simpa using (Bool.and_eq_true_iff.1 hr).1
    · exact List.countP_pos_iff.2 ⟨row, hrow, by simp [hactive]⟩
  simp only [Service.rotateRefreshOnce, hfound, huser, henabled, Bool.false_eq_true, if_false,
    if_neg (not_le.2 hunexpired), hrevoked]
  rw [Service.swap, if_neg (not_not.2 hone)]
  intro hraced
  split at hraced
  · rename_i e hissued
    unfold Service.issueTokens at hissued
    split at hissued <;> simp_all
  · split at hraced <;> simp at hraced

end Found

/-! ## Every presentation -/

variable {w w₀ : World} {es : List Event}

/-- The rows that `revokeAllTx` leaves. -/
theorem active_of_mem_revokeAllTx {userID : ℕ} {r : RefreshToken}
    (h : r ∈ (db.revokeAllTx userID now).refreshTokens) (huser : r.userID = userID) :
    r.active = false := by
  have hrevoked := revokedAt_of_mem_revokeWhere (p := fun r => decide (r.userID = userID)) h
    fun r' _ _ hid => by simp [hid, huser]
  simpa [RefreshToken.active, Option.isSome_iff_ne_none] using hrevoked

/-- What the cases need to know of a row: it is found by its hash, its user is there, and so is
its successor. -/
theorem found_run (h₀ : w₀.Init) (h : Run svc.Step w₀ es w) (hrow : row ∈ w.db.refreshTokens) :
    w.db.refreshByHash row.tokenHash = some row ∧
      (∃ user, w.db.lockUserTx row.userID = some user) ∧
      ∀ next, row.replacedBy = some next →
        row.revokedAt ≠ none ∧ ∃ s ∈ w.db.refreshTokens, w.db.refreshToken next = some s := by
  have hw := sound_run h₀ h
  refine ⟨refreshByHash_eq hw.hashes hrow, (accounts_run h₀ h).owner row hrow, fun next hnext => ?_⟩
  obtain ⟨s, hs, rfl, -⟩ := (chained_run h₀ h).successor row hrow next hnext
  exact ⟨hw.heads row hrow (by simp [hnext]), s, hs, hw.keyed.byKey_eq hs⟩

theorem not_disabled_iff (huser : db.lockUserTx row.userID = some user) :
    ¬ db.Disabled row.userID ↔ user.disabled = false := by
  simp [DB.Disabled, huser]

/-- A presentation that is neither a reuse nor can be exchanged changes nothing. -/
theorem rotateRefreshOnce_refused (draw : Draw) (h₀ : w₀.Init) (h : Run svc.Step w₀ es w)
    (hrow : row ∈ w.db.refreshTokens) (hreused : ¬ svc.Reused w.db row now)
    (hrotatable : ¬ Rotatable w.db row now) :
    ∃ e, svc.rotateRefreshOnce w.db w.db row.tokenHash now draw = (.error e, w.db) ∧
      e ≠ .refreshReuse ∧ (e = .rotationRaced ↔
        ¬ w.db.Disabled row.userID ∧ svc.Raced w.db row now) := by
  obtain ⟨hfound, ⟨user, huser⟩, hsuccessor⟩ := found_run h₀ h hrow
  have hw := sound_run h₀ h
  cases hdisabled : user.disabled with
  | true =>
    refine ⟨_, rotateRefreshOnce_disabled hfound huser hdisabled, by simp, ?_⟩
    simp [DB.Disabled, huser, hdisabled]
  | false =>
  have henabled := (not_disabled_iff huser).2 hdisabled
  rcases le_or_gt row.expiresAt now with hexpired | hunexpired
  · refine ⟨_, rotateRefreshOnce_expired hfound huser hdisabled hw.keyed hrow hexpired, ?_, ?_⟩
    · split <;> simp
    · simp only [Service.Raced, henabled, hexpired, true_or, and_true, not_false_eq_true, true_and,
        ← Option.isSome_iff_exists]
      split <;> simp_all
  · have hactive : row.revokedAt ≠ none := fun hnone =>
      hrotatable ⟨henabled, hunexpired, by simp [RefreshToken.active, hnone]⟩
    obtain ⟨rotatedAt, hrotated⟩ := Option.ne_none_iff_exists'.1 hactive
    cases hnext : row.replacedBy with
    | none =>
      refine ⟨_, rotateRefreshOnce_revoked hfound huser hdisabled hunexpired hactive hnext,
        by simp, ?_⟩
      simp [Service.Raced, hnext]
    | some next =>
      obtain ⟨-, s, hs, hfoundS⟩ := hsuccessor next hnext
      have hcase : svc.WithinGrace rotatedAt now ∧ s.replacedBy = none := by
        by_contra hcon
        refine hreused ⟨henabled, hunexpired, next, rotatedAt, hnext, hrotated, ?_⟩
        rcases not_and_or.1 hcon with hgrace | hlink
        · exact .inl hgrace
        · exact .inr ⟨s, hfoundS, hlink⟩
      refine ⟨_, rotateRefreshOnce_graced hfound huser hdisabled hunexpired hnext hrotated hcase.1
        hfoundS hcase.2, ?_, ?_⟩
      · split <;> simp
      · simp only [Service.Raced, henabled, hnext, hrotated, not_le.2 hunexpired, not_false_eq_true,
          true_and, false_or, Option.some.injEq, exists_eq_left', hfoundS]
        split <;> simp_all

theorem not_raced_of_reused (hw : w.Sound) (hreused : svc.Reused w.db row now) :
    ¬ svc.Raced w.db row now := by
  rintro ⟨next, hnext, hexpired | ⟨rotatedAt, s, hrotated, hgrace, hs, hactive, -⟩⟩
  · exact absurd hexpired (not_le.2 hreused.unexpired)
  · obtain ⟨next', rotatedAt', hnext', hrotated', hcase⟩ := hreused.rotated
    rw [hnext, Option.some.injEq] at hnext'
    rw [hrotated, Option.some.injEq] at hrotated'
    subst hnext' hrotated'
    obtain ⟨s', hs', hlink⟩ := hcase.resolve_left (not_not.2 hgrace)
    rw [hs, Option.some.injEq] at hs'
    subst hs'
    -- a live successor has not been rotated
    have hrevoked := hw.heads s (mem_of_byKey hs).1 hlink
    simp_all [RefreshToken.active]

/-- **Reuse of a rotated token.** In every reachable state, with no one else writing: an unexpired
rotated token of a user who is not disabled, presented past the grace or when its successor was
rotated itself, is reported as reuse, and the state committed has no active session of the user.
Any other presentation of a token that cannot be exchanged changes no row and is an error; a token
that was revoked without being rotated is one of these. And a lost rotation is reported exactly
for a token of a user who is not disabled that has a successor and either is expired or whose
successor is live within the grace. -/
theorem refresh_reuse (h₀ : w₀.Init) (h : Run svc.Step w₀ es w) (hash : String) (now : ℤ)
    (draw : Draw) :
    (∀ row ∈ w.db.refreshTokens, row.tokenHash = hash → svc.Reused w.db row now →
      (svc.rotateRefreshOnce w.db w.db hash now draw).1 = .error .refreshReuse ∧
        ∀ r ∈ (svc.rotateRefreshOnce w.db w.db hash now draw).2.refreshTokens,
          r.userID = row.userID → r.active = false) ∧
    ((∀ row ∈ w.db.refreshTokens, row.tokenHash = hash →
        ¬ svc.Reused w.db row now ∧ ¬ Rotatable w.db row now) →
      (svc.rotateRefreshOnce w.db w.db hash now draw).2 = w.db ∧
        ∃ e, (svc.rotateRefreshOnce w.db w.db hash now draw).1 = .error e ∧ e ≠ .refreshReuse) ∧
    (∀ row ∈ w.db.refreshTokens, row.tokenHash = hash → row.revokedAt ≠ none →
      row.replacedBy = none → (svc.rotateRefreshOnce w.db w.db hash now draw).2 = w.db) ∧
    ((svc.rotateRefreshOnce w.db w.db hash now draw).1 = .error .rotationRaced ↔
      ∃ row ∈ w.db.refreshTokens, row.tokenHash = hash ∧ ¬ w.db.Disabled row.userID ∧
        svc.Raced w.db row now) := by
  have hw := sound_run h₀ h
  refine ⟨?_, fun hother => ?_, ?_, ?_⟩
  · rintro row hrow rfl hreused
    obtain ⟨hfound, ⟨user, huser⟩, -⟩ := found_run h₀ h hrow
    rw [rotateRefreshOnce_reused hfound huser ((not_disabled_iff huser).1 hreused.enabled)
      hreused.unexpired hreused]
    exact ⟨rfl, fun r hr => active_of_mem_revokeAllTx hr⟩
  · by_cases hknown : ∃ row ∈ w.db.refreshTokens, row.tokenHash = hash
    · obtain ⟨row, hrow, rfl⟩ := hknown
      obtain ⟨hreused, hrotatable⟩ := hother row hrow rfl
      obtain ⟨e, heq, hne, -⟩ := rotateRefreshOnce_refused draw h₀ h hrow hreused hrotatable
      rw [heq]
      exact ⟨rfl, e, rfl, hne⟩
    · rw [rotateRefreshOnce_unknown fun r hr hhash => hknown ⟨r, hr, hhash⟩]
      exact ⟨rfl, _, rfl, by simp⟩
  · rintro row hrow rfl hrevoked hlink
    obtain ⟨e, heq, -⟩ := rotateRefreshOnce_refused draw h₀ h hrow
      (fun hreused : svc.Reused w.db row now => by
        obtain ⟨next, -, hnext, -⟩ := hreused.rotated
        simp [hlink] at hnext)
      (fun hrotatable => hrevoked (by simpa [RefreshToken.active] using hrotatable.active))
    rw [heq]
  · by_cases hknown : ∃ row ∈ w.db.refreshTokens, row.tokenHash = hash
    · obtain ⟨row, hrow, rfl⟩ := hknown
      -- the row with the hash is the only one
      have honly : (∃ row' ∈ w.db.refreshTokens, row'.tokenHash = row.tokenHash ∧
          ¬ w.db.Disabled row'.userID ∧ svc.Raced w.db row' now) ↔
          ¬ w.db.Disabled row.userID ∧ svc.Raced w.db row now := by
        constructor
        · rintro ⟨row', hrow', hhash, hcase⟩
          rwa [List.inj_on_of_nodup_map hw.hashes hrow' hrow hhash] at hcase
        · exact fun hcase => ⟨row, hrow, rfl, hcase⟩
      rw [honly]
      obtain ⟨hfound, ⟨user, huser⟩, hsuccessor⟩ := found_run h₀ h hrow
      by_cases hreused : svc.Reused w.db row now
      · rw [rotateRefreshOnce_reused hfound huser ((not_disabled_iff huser).1 hreused.enabled)
          hreused.unexpired hreused]
        exact iff_of_false (by simp) fun hcase => not_raced_of_reused hw hreused hcase.2
      · by_cases hrotatable : Rotatable w.db row now
        · have hne := rotateRefreshOnce_active hfound huser
            ((not_disabled_iff huser).1 hrotatable.enabled) hrotatable.unexpired svc draw hw.keyed
            hrow hrotatable.active
          refine iff_of_false hne ?_
          rintro ⟨-, next, hnext, -⟩
          have hrevoked := (hsuccessor next hnext).1
          have hactive := hrotatable.active
          simp_all [RefreshToken.active]
        · obtain ⟨e, heq, -, hraced⟩ :=
            rotateRefreshOnce_refused draw h₀ h hrow hreused hrotatable
          rw [heq, ← hraced, Except.error.injEq]
    · rw [rotateRefreshOnce_unknown fun r hr hhash => hknown ⟨r, hr, hhash⟩]
      refine iff_of_false (by simp) ?_
      rintro ⟨row, hrow, hhash, -⟩
      exact hknown ⟨row, hrow, hhash⟩

/-- Presented again an hour later, the rotated token ends the session. -/
theorem refresh_reuse_sample : ∃ es w, sampleWorld.Init ∧ Run sampleService.Step sampleWorld es w ∧
    (sampleService.rotateRefreshOnce w.db w.db "first" (3600 * 10 ^ 9) ⟨3, "third"⟩).1 =
      .error .refreshReuse := by
  obtain ⟨w, hrun, hdb⟩ := rotated_run
  refine ⟨_, w, sampleWorld_init, hrun, ?_⟩
  refine ((refresh_reuse sampleWorld_init hrun "first" (3600 * 10 ^ 9) ⟨3, "third"⟩).1
    ⟨1, 1, "first", 7 * 24 * 3600 * 10 ^ 9, some 0, some 2, 0⟩ (by rw [hdb]; decide) rfl ?_).1
  refine ⟨?_, by decide, 2, 0, rfl, rfl, .inl (by simp [Service.WithinGrace, sampleService])⟩
  rw [hdb]
  rintro ⟨u, hu, hdisabled⟩
  obtain rfl := Option.some.inj hu
  exact absurd hdisabled (by decide)

/-- **A disabled user's token.** The token has a successor and is expired, and yet the answer is
not that a rotation was lost: the user is disabled. -/
theorem rotation_raced_disabled :
    ¬ ∀ (svc : Service) (w₀ w : World) (es : List Event) (hash : String) (now : ℤ) (draw : Draw),
      w₀.Init → Run svc.Step w₀ es w →
      ((svc.rotateRefreshOnce w.db w.db hash now draw).1 = .error .rotationRaced ↔
        ∃ row ∈ w.db.refreshTokens, row.tokenHash = hash ∧ svc.Raced w.db row now) := by
  intro hall
  obtain ⟨w, hrun, hdb⟩ := rotated_run
  have hdisable : sampleService.Step w ⟨.setUserState 1 true, _⟩ _ :=
    .setUserState (fun _ => none) 1
  have hrun' := hrun.append (.single hdisable)
  have hiff := hall sampleService sampleWorld _ _ "first" (8 * 24 * 3600 * 10 ^ 9) ⟨3, "third"⟩
    sampleWorld_init hrun'
  rw [World.commit_db, hdb] at hiff
  have hraced := hiff.2 ⟨⟨1, 1, "first", 7 * 24 * 3600 * 10 ^ 9, some 0, some 2, 0⟩, by decide, rfl,
    2, rfl, .inl (by decide)⟩
  exact absurd hraced (by decide)

end Gombit.Auth
