import Gombit.Foundations.Rows
import Mathlib.Algebra.Ring.Int.Defs
import Mathlib.Data.Int.Order.Basic
import Mathlib.Data.List.Sort

/-!
# The tables of the auth package

The rows the auth service keeps (`auth/models.go`): users, refresh tokens, one-time tokens; its
configuration; its errors; and the statements its transactions are made of.

An instant is an integer, in nanoseconds. A token enters as the SHA-256 it is stored as: the
service never looks at the raw value, but to trim and hash it.

Two kinds of reads are told apart. A locking read (`lockUserTx`, `hasSuccessorTx`,
`lockRefreshRowTx`) and the condition of an `UPDATE` see the latest committed rows; the holder of
a user's lock is the only one to change what it guards. A plain read sees some committed state,
not always the latest: a function that makes plain reads takes the state they see as an argument
of its own, `plain`, next to `db`, the latest.
-/

namespace Gombit.Auth

open Rows

/-! ## Rows -/

/-- `User`. -/
structure User where
  id : ℕ
  email : String
  passwordHash : String
  disabledAt : Option ℤ
  emailVerifiedAt : Option ℤ
  verifiedEmail : String
  deriving DecidableEq

/-- `User.Disabled`. -/
def User.disabled (u : User) : Bool := u.disabledAt.isSome

/-- `RefreshToken`. -/
structure RefreshToken where
  id : ℕ
  userID : ℕ
  tokenHash : String
  expiresAt : ℤ
  revokedAt : Option ℤ
  replacedBy : Option ℕ
  createdAt : ℤ
  deriving DecidableEq

/-- A row that no one has revoked. -/
def RefreshToken.active (r : RefreshToken) : Bool := r.revokedAt.isNone

/-- `TokenPurpose`. -/
inductive TokenPurpose
  | verifyEmail
  | resetPassword
  | changeEmail
  deriving DecidableEq

/-- `OneTimeToken`. -/
structure OneTimeToken where
  id : ℕ
  userID : ℕ
  purpose : TokenPurpose
  tokenHash : String
  email : String
  fromEmail : String
  expiresAt : ℤ
  /-- When its message was delivered; none while it is pending. -/
  sentAt : Option ℤ
  /-- When it was consumed, superseded or voided. -/
  usedAt : Option ℤ
  createdAt : ℤ
  deriving DecidableEq

/-- The committed rows. -/
structure DB where
  users : List User
  refreshTokens : List RefreshToken
  oneTimeTokens : List OneTimeToken
  deriving DecidableEq

/-! ## Errors -/

inductive Err
  /-- `errInvalidCredentials`. -/
  | invalidCredentials
  | accountDisabled
  | userNotFound
  | invalidAccessToken
  | invalidRefreshToken
  /-- `errRotationRaced`, which wraps `errInvalidRefreshToken`. -/
  | rotationRaced
  | refreshReuse
  | sessionNotFound
  | sessionEnded
  | wrongCurrentPassword
  /-- `errPasswordChanged`. -/
  | passwordChanged
  | invalidOneTimeToken
  | tokenNotPending
  /-- `resendTooSoonError`, with the time left to wait. -/
  | resendTooSoon (retryAfter : ℤ)
  | alreadyVerified
  | emailUnchanged
  | emailChangedMeanwhile
  | emailTaken
  /-- The database refused a statement, or lost the connection. -/
  | database
  deriving DecidableEq

/-- What a request answers, and the rows it leaves. An error leaves them as they were, unless the
transaction commits before it is reported. -/
abbrev Outcome (α : Type) := Except Err α × DB

/-! ## The service -/

/-- What a `Service` is configured with. -/
structure Service where
  accessTokenTTL : ℤ
  refreshTokenTTL : ℤ
  refreshReuseGrace : ℤ
  passwordResetKeepSessions : Bool
  passwordResetTTL : ℤ
  emailVerificationTTL : ℤ
  /-- `hasher.Compare`: whether the hash is one of the password. -/
  compare : String → String → Bool
  /-- `normalizeEmail`. -/
  normalizeEmail : String → String
  /-- The database's comparison of emails, which may fold more than `normalizeEmail`. -/
  sameEmail : String → String → Bool
  /-- `sessionID`: the identifier of a session that the API shows. -/
  sessionID : ℕ → String

/-- What a new row gets: its key, and the token drawn for it. -/
structure Draw where
  id : ℕ
  tokenHash : String
  deriving DecidableEq

/-! ## Statements -/

namespace DB

/-- `lockUserTx`. -/
def lockUserTx (db : DB) (userID : ℕ) : Option User := byKey User.id db.users userID

/-- The refresh token row with the id. -/
def refreshToken (db : DB) (id : ℕ) : Option RefreshToken :=
  byKey RefreshToken.id db.refreshTokens id

/-- The refresh token row with the hash. -/
def refreshByHash (db : DB) (hash : String) : Option RefreshToken :=
  db.refreshTokens.find? fun r => decide (r.tokenHash = hash)

/-- `UPDATE users … WHERE id`. -/
def updateUser (db : DB) (userID : ℕ) (f : User → User) : DB :=
  { db with users := updateWhere (fun u => decide (u.id = userID)) f db.users }

/-- Set `revoked_at` on the rows selected that have none. -/
def revokeWhere (db : DB) (p : RefreshToken → Bool) (now : ℤ) : DB :=
  { db with
    refreshTokens := updateWhere (fun r => p r && r.active) (fun r => { r with revokedAt := some now })
      db.refreshTokens }

/-- `revokeAllTx`. -/
def revokeAllTx (db : DB) (userID : ℕ) (now : ℤ) : DB :=
  db.revokeWhere (fun r => decide (r.userID = userID)) now

/-- `revokeSessionsButTx`. -/
def revokeSessionsButTx (db : DB) (userID : ℕ) (keep : List ℕ) (now : ℤ) : DB :=
  db.revokeWhere (fun r => decide (r.userID = userID) && decide (r.id ∉ keep)) now

/-- Set `used_at` on the one-time tokens selected that have none. -/
def useWhere (db : DB) (p : OneTimeToken → Bool) (now : ℤ) : DB :=
  { db with
    oneTimeTokens := updateWhere (fun t => p t && t.usedAt.isNone) (fun t => { t with usedAt := some now })
      db.oneTimeTokens }

/-- `voidTokensTx`, for the purposes selected. -/
def voidTokensTx (db : DB) (userID except : ℕ) (now : ℤ) (purposes : TokenPurpose → Bool) : DB :=
  db.useWhere (fun t => decide (t.userID = userID) && decide (t.id ≠ except) && purposes t.purpose) now

/-- The purposes of `voidPasswordBoundTokensTx`. -/
def passwordBound : TokenPurpose → Bool
  | .verifyEmail => false
  | .resetPassword => true
  | .changeEmail => true

/-- `voidPasswordBoundTokensTx`. -/
def voidPasswordBoundTokensTx (db : DB) (userID except : ℕ) (now : ℤ) : DB :=
  db.voidTokensTx userID except now passwordBound

/-- `supersedeTokensTx`. -/
def supersedeTokensTx (db : DB) (userID : ℕ) (purpose : TokenPurpose) (keep : ℕ) (now : ℤ) : DB :=
  db.useWhere (fun t => decide (t.userID = userID) && decide (t.purpose = purpose) && t.sentAt.isSome &&
    decide (t.id ≠ keep)) now

section Frames

variable (db : DB) (userID : ℕ) (now : ℤ)

@[simp] theorem updateUser_refreshTokens (f : User → User) :
    (db.updateUser userID f).refreshTokens = db.refreshTokens := rfl

end Frames

end DB

end Gombit.Auth
