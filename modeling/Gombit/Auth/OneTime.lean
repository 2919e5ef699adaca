import Gombit.Auth.Store

/-!
# One-time tokens

The mailed, single-use tokens (`auth/onetime.go`) and the requests that consume them
(`auth/verification.go`, `auth/password.go`, `auth/email_change.go`).

A send has three transactions around the mailing: `issueOneTimeToken` writes a pending token,
`activateToken` makes it work once its message was delivered, and `withdrawToken` deletes it when
the message is no use.
-/

namespace Gombit.Auth

open Rows

/-- `resendInterval`. -/
def resendInterval : ℤ := 60 * 10 ^ 9

/-- `oneTimeFlow`: what a purpose plugs into `sendOneTimeToken`. An email change is for the
snapshot of the user whose password was checked, and the new address. -/
inductive Flow
  | verifyEmail
  | resetPassword
  | changeEmail (user : User) (newEmail : String)
  deriving DecidableEq

def Flow.purpose : Flow → TokenPurpose
  | .verifyEmail => .verifyEmail
  | .resetPassword => .resetPassword
  | .changeEmail _ _ => .changeEmail

/-- `config.DefaultPasswordResetTTL`. -/
def defaultPasswordResetTTL : ℤ := 3600 * 10 ^ 9

/-- `config.DefaultEmailVerificationTTL`. -/
def defaultEmailVerificationTTL : ℤ := 24 * 3600 * 10 ^ 9

namespace Service

variable (svc : Service)

/-- `User.EmailVerified`. -/
def emailVerified (u : User) : Bool :=
  u.emailVerifiedAt.isSome && decide (u.verifiedEmail ≠ "") &&
    decide (svc.normalizeEmail u.verifiedEmail = svc.normalizeEmail u.email)

/-- How long a flow's token lives. -/
def flowTTL : Flow → ℤ
  | .verifyEmail => verificationTTL
  | .resetPassword =>
    if 0 < svc.passwordResetTTL then svc.passwordResetTTL else defaultPasswordResetTTL
  | .changeEmail _ _ => verificationTTL
where
  verificationTTL : ℤ :=
    if 0 < svc.emailVerificationTTL then svc.emailVerificationTTL else defaultEmailVerificationTTL

/-- A flow's `check`: what refuses the message for the locked user. -/
def flowCheck (plain : DB) (locked : User) : Flow → Option Err
  | .verifyEmail => if svc.emailVerified locked then some .alreadyVerified else none
  | .resetPassword => none
  | .changeEmail user newEmail =>
    if locked.passwordHash ≠ user.passwordHash then some .passwordChanged
    else if locked.email ≠ user.email then some .emailChangedMeanwhile
    else if plain.users.any fun u => svc.sameEmail u.email newEmail then some .emailTaken
    else none

/-- The address a flow's token is mailed to and proves. -/
def flowTo (locked : User) : Flow → String
  | .changeEmail _ newEmail => if newEmail = "" then locked.email else newEmail
  | _ => locked.email

/-! ## Sending -/

/-- The user's tokens of a purpose, the ones delivered or the ones pending. -/
def tokensOf (plain : DB) (userID : ℕ) (purpose : TokenPurpose) (sent : Bool) : List OneTimeToken :=
  plain.oneTimeTokens.filter fun t =>
    decide (t.userID = userID) && decide (t.purpose = purpose) && (t.sentAt.isSome == sent)

/-- `oneTimeWait`: from the latest message delivered, or the latest one still in flight. -/
def oneTimeWait (plain : DB) (userID : ℕ) (purpose : TokenPurpose) (now : ℤ) : ℤ :=
  let sent := ((tokensOf plain userID purpose true).filterMap OneTimeToken.sentAt).max?
  let pending := ((tokensOf plain userID purpose false).insertionSort
    fun a b => decide (b.id ≤ a.id)).head?
  let wait := match sent with
    | some at_ => resendInterval - (now - at_)
    | none => 0
  let wait := match pending with
    | some t => max wait (resendInterval - (now - t.createdAt))
    | none => wait
  max wait 0

/-- The token `issueOneTimeToken` inserts. -/
def newToken (locked : User) (f : Flow) (now : ℤ) (draw : Draw) : OneTimeToken where
  id := draw.id
  userID := locked.id
  purpose := f.purpose
  tokenHash := draw.tokenHash
  email := flowTo locked f
  fromEmail := locked.email
  expiresAt := now + svc.flowTTL f
  sentAt := none
  usedAt := none
  createdAt := now

/-- `issueOneTimeToken`. -/
def issueOneTimeToken (plain db : DB) (userID : ℕ) (f : Flow) (now : ℤ) (draw : Draw) :
    Outcome OneTimeToken :=
  match db.lockUserTx userID with
  | none => (.error .userNotFound, db)
  | some locked =>
    if locked.disabled then (.error .accountDisabled, db)
    else
      match svc.flowCheck plain locked f with
      | some e => (.error e, db)
      | none =>
        if 0 < oneTimeWait plain locked.id f.purpose now then
          (.error (.resendTooSoon (oneTimeWait plain locked.id f.purpose now)), db)
        else if db.oneTimeTokens.any fun t =>
            decide (t.id = draw.id) || decide (t.tokenHash = draw.tokenHash) then
          (.error .database, db)
        else
          (.ok (svc.newToken locked f now draw),
            { db with oneTimeTokens := db.oneTimeTokens ++ [svc.newToken locked f now draw] })

/-- `activateToken`. -/
def activateToken (db : DB) (token : OneTimeToken) (now : ℤ) : Outcome Unit :=
  match db.lockUserTx token.userID with
  | none => (.error .database, db)
  | some _ =>
    let pending : OneTimeToken → Bool := fun t =>
      decide (t.id = token.id) && t.sentAt.isNone && t.usedAt.isNone
    if affected pending db.oneTimeTokens ≠ 1 then (.error .tokenNotPending, db)
    else
      (.ok (),
        DB.supersedeTokensTx
          { db with
            oneTimeTokens := updateWhere pending (fun t => { t with sentAt := some now })
              db.oneTimeTokens }
          token.userID token.purpose token.id now)

/-- `withdrawToken`. -/
def withdrawToken (db : DB) (token : OneTimeToken) : DB :=
  { db with
    oneTimeTokens := db.oneTimeTokens.filter fun t =>
      !(decide (t.id = token.id) && t.sentAt.isNone) }

/-! ## Consuming -/

/-- `consumeOneTimeToken`, in a transaction: the token as the plain read sees it, its user, and
the rows with the token used up. -/
def consumeOneTimeToken (plain db : DB) (hash : String) (purpose : TokenPurpose) (now : ℤ) :
    Except Err (OneTimeToken × User × DB) :=
  match plain.oneTimeTokens.find? fun t =>
      decide (t.tokenHash = hash) && decide (t.purpose = purpose) with
  | none => .error .invalidOneTimeToken
  | some token =>
    match db.lockUserTx token.userID with
    | none => .error .invalidOneTimeToken
    | some locked =>
      if locked.disabled then .error .invalidOneTimeToken
      else if token.sentAt.isNone = true ∨ token.usedAt.isSome = true ∨ token.expiresAt ≤ now then
        .error .invalidOneTimeToken
      else if affected (fun t => decide (t.id = token.id) && t.sentAt.isSome && t.usedAt.isNone)
          db.oneTimeTokens ≠ 1 then
        .error .invalidOneTimeToken
      else if locked.email ≠ (if token.fromEmail = "" then token.email else token.fromEmail) then
        .error .invalidOneTimeToken
      else
        .ok (token, locked,
          db.useWhere (fun t => decide (t.id = token.id) && t.sentAt.isSome) now)

/-- `resetTokenMayWork`. -/
def resetTokenMayWork (plain : DB) (hash : String) (now : ℤ) : Bool :=
  match plain.oneTimeTokens.find? fun t =>
      decide (t.tokenHash = hash) && decide (t.purpose = .resetPassword) with
  | none => false
  | some token =>
    if token.sentAt.isNone = true ∨ token.usedAt.isSome = true ∨ token.expiresAt ≤ now then false
    else
      match byKey User.id plain.users token.userID with
      | none => false
      | some user => decide (user.email = token.email)

/-- `consumeReset`, past the password policy: `screen` is what the screening reads see, at
`screened`, and `newHash` the hash of the new password. -/
def consumeReset (screen plain db : DB) (hash newHash : String) (screened now : ℤ) : Outcome User :=
  if !resetTokenMayWork screen hash screened then (.error .invalidOneTimeToken, db)
  else
    match consumeOneTimeToken plain db hash .resetPassword now with
    | .error e => (.error e, db)
    | .ok (token, locked, db₁) =>
      let db₂ := (db₁.updateUser locked.id fun u =>
        { u with passwordHash := newHash }).voidPasswordBoundTokensTx locked.id token.id now
      (.ok { locked with passwordHash := newHash },
        if svc.passwordResetKeepSessions then db₂ else db₂.revokeAllTx locked.id now)

/-- `consumeVerification`. -/
def consumeVerification (plain db : DB) (hash : String) (now : ℤ) : Outcome User :=
  match consumeOneTimeToken plain db hash .verifyEmail now with
  | .error e => (.error e, db)
  | .ok (token, locked, db₁) =>
    if svc.emailVerified locked then (.ok locked, db₁)
    else
      (.ok { locked with emailVerifiedAt := some now, verifiedEmail := token.email },
        db₁.updateUser locked.id fun u =>
          { u with emailVerifiedAt := some now, verifiedEmail := token.email })

/-- `consumeEmailChange`. The email is a unique column. -/
def consumeEmailChange (plain db : DB) (hash : String) (now : ℤ) : Outcome User :=
  match consumeOneTimeToken plain db hash .changeEmail now with
  | .error e => (.error e, db)
  | .ok (token, locked, db₁) =>
    if db₁.users.any fun u => decide (u.id ≠ locked.id) && svc.sameEmail u.email token.email then
      (.error .emailTaken, db)
    else
      (.ok
        { locked with
          email := token.email, emailVerifiedAt := some now, verifiedEmail := token.email },
        (db₁.updateUser locked.id fun u =>
          { u with
            email := token.email, emailVerifiedAt := some now,
            verifiedEmail := token.email }).voidTokensTx locked.id token.id now fun _ => true)

end Service

end Gombit.Auth
