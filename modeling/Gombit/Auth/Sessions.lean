import Gombit.Auth.Store

/-!
# Sessions

The requests that start, extend and end a user's sessions (`auth/service.go`, `auth/sessions.go`,
`auth/account_state.go`): logins, rotations, logouts, revocations, disabling an account.

A session is a chain of refresh token rows: a login inserts the first, and each rotation revokes
the last and inserts its replacement. The audit trail and the login throttles are left out.
-/

namespace Gombit.Auth

open Rows

/-! ## Issuing tokens -/

/-- The claims of an access token (`accessClaims`). -/
structure AccessClaims where
  email : String
  refreshID : ℕ
  subject : ℕ
  issuedAt : ℤ
  expiresAt : ℤ
  notBefore : ℤ
  deriving DecidableEq

/-- `TokenPair`. -/
structure TokenPair where
  accessToken : AccessClaims
  refreshToken : String
  tokenType : String
  expiresIn : ℤ
  deriving DecidableEq

/-- `jwt.NewNumericDate`: whole seconds. -/
def numericDate (t : ℤ) : ℤ := t - t % 10 ^ 9

/-- `signAccessToken`, with the secret set. -/
def signAccessToken (user : User) (refreshID : ℕ) (ttl now : ℤ) : AccessClaims where
  email := user.email
  refreshID := refreshID
  subject := user.id
  issuedAt := numericDate now
  expiresAt := numericDate (now + ttl)
  notBefore := numericDate now

namespace Service

variable (svc : Service)

/-- The row `issueTokens` inserts. -/
def newRow (user : User) (now : ℤ) (draw : Draw) : RefreshToken where
  id := draw.id
  userID := user.id
  tokenHash := draw.tokenHash
  expiresAt := now + svc.refreshTokenTTL
  revokedAt := none
  replacedBy := none
  createdAt := now

/-- `issueTokens`. The key and the hash are unique columns, so the insert is refused for a drawn
value that the table has. -/
def issueTokens (db : DB) (user : User) (now : ℤ) (draw : Draw) : Except Err (TokenPair × DB) :=
  if db.refreshTokens.any fun r => decide (r.id = draw.id) || decide (r.tokenHash = draw.tokenHash) then
    .error .database
  else
    .ok
      ({ accessToken := signAccessToken user draw.id svc.accessTokenTTL now
         refreshToken := draw.tokenHash
         tokenType := "Bearer"
         expiresIn := svc.accessTokenTTL.tdiv (10 ^ 9) },
        { db with refreshTokens := db.refreshTokens ++ [svc.newRow user now draw] })

/-! ## Logging in -/

/-- `findUserByEmail`. -/
def findUserByEmail (db : DB) (email : String) : Option User :=
  (db.users.find? fun u => svc.sameEmail u.email email).filter fun u =>
    decide (svc.normalizeEmail u.email = email)

/-- `Authenticate`, past the throttles: the user as the plain read of `plain` sees it. -/
def authenticate (plain : DB) (email password : String) : Except Err User :=
  match svc.findUserByEmail plain (svc.normalizeEmail email) with
  | none => .error .invalidCredentials
  | some user =>
    if !svc.compare user.passwordHash password then .error .invalidCredentials
    else if user.disabled then .error .accountDisabled
    else .ok user

/-- `startSession`, for the snapshot `user`. -/
def startSession (db : DB) (user : User) (now : ℤ) (draw : Draw) : Outcome (User × TokenPair) :=
  match db.lockUserTx user.id with
  | none => (.error .invalidCredentials, db)
  | some locked =>
    if locked.disabled then (.error .accountDisabled, db)
    else if locked.passwordHash ≠ user.passwordHash then (.error .invalidCredentials, db)
    else
      match svc.issueTokens db locked now draw with
      | .error e => (.error e, db)
      | .ok (pair, db') => (.ok (locked, pair), db')

/-- `Login`. -/
def login (plain db : DB) (email password : String) (now : ℤ) (draw : Draw) :
    Outcome (User × TokenPair) :=
  match svc.authenticate plain email password with
  | .error e => (.error e, db)
  | .ok user => svc.startSession db user now draw

/-! ## Rotating -/

/-- `hasSuccessorTx`. -/
def hasSuccessorTx (db : DB) (id : ℕ) : Except Err Bool :=
  match db.refreshToken id with
  | none => .error .database
  | some current => .ok current.replacedBy.isSome

/-- `errRotationRaced` for a token with a successor, `errInvalidRefreshToken` for one without. -/
def lostRotation : Except Err Bool → Err
  | .error e => e
  | .ok rotated => if rotated then .rotationRaced else .invalidRefreshToken

/-- The compare-and-swap of a rotation, and what it commits when it wins. -/
def swap (db : DB) (row : RefreshToken) (user : User) (now : ℤ) (draw : Draw) :
    Outcome (TokenPair × User) :=
  if affected (fun r => decide (r.id = row.id) && r.active) db.refreshTokens ≠ 1 then
    (.error (lostRotation (hasSuccessorTx db row.id)), db)
  else
    match svc.issueTokens (db.revokeWhere (fun r => decide (r.id = row.id)) now) user now draw with
    | .error e => (.error e, db)
    | .ok (pair, db') =>
      match db'.refreshByHash pair.refreshToken with
      | none => (.error .database, db)
      | some replacement =>
        (.ok (pair, user),
          { db' with
            refreshTokens := updateWhere (fun r => decide (r.id = row.id))
              (fun r => { r with replacedBy := some replacement.id }) db'.refreshTokens })

/-- What `rotateRefreshOnce` does with an unexpired token that was rotated before, at `revokedAt`:
a lost race within the grace, else reuse. The successor is read with `lockRefreshRowTx`. -/
def presentedAgain (db : DB) (row : RefreshToken) (revokedAt : ℤ) (next : ℕ) (now : ℤ) :
    Outcome (TokenPair × User) :=
  let reuse : Outcome (TokenPair × User) := (.error .refreshReuse, db.revokeAllTx row.userID now)
  if 0 < svc.refreshReuseGrace ∧ now - svc.refreshReuseGrace < revokedAt then
    match db.refreshToken next with
    | none => (.error .database, db)
    | some successor =>
      if successor.replacedBy.isSome then reuse
      else if successor.revokedAt.isNone = true ∧ now < successor.expiresAt then
        (.error .rotationRaced, db)
      else (.error .invalidRefreshToken, db)
  else reuse

/-- `rotateRefreshOnce`: the row of the token is read plainly, before the user's lock is held. -/
def rotateRefreshOnce (plain db : DB) (hash : String) (now : ℤ) (draw : Draw) :
    Outcome (TokenPair × User) :=
  match plain.refreshByHash hash with
  | none => (.error .invalidRefreshToken, db)
  | some row =>
    match db.lockUserTx row.userID with
    | none => (.error .userNotFound, db)
    | some user =>
      if user.disabled then (.error .invalidRefreshToken, db)
      else if row.expiresAt ≤ now then
        -- an unrevoked row may have been rotated since it was read
        (.error (lostRotation (if row.revokedAt.isNone then hasSuccessorTx db row.id
          else .ok row.replacedBy.isSome)), db)
      else
        match row.revokedAt, row.replacedBy with
        | some _, none => (.error .invalidRefreshToken, db)
        | some revokedAt, some next => svc.presentedAgain db row revokedAt next now
        | none, _ => svc.swap db row user now draw

/-! ## Logging out -/

/-- `RevokeRefresh`. -/
def revokeRefresh (plain db : DB) (hash : String) (now : ℤ) : Outcome Unit :=
  match plain.refreshTokens.find? fun r => decide (r.tokenHash = hash) && r.active with
  | none => (.ok (), db)
  | some row => (.ok (), db.revokeWhere (fun r => decide (r.id = row.id)) now)

/-! ## Access tokens -/

/-- `parseAccessToken`, of a token with a valid signature. -/
def parseAccessToken (claims : AccessClaims) (now : ℤ) : Except Err AccessClaims :=
  if claims.expiresAt ≤ now ∨ now < claims.notBefore ∨ claims.refreshID = 0 ∨ claims.subject = 0 then
    .error .invalidAccessToken
  else .ok claims

/-- `parseAccess`: the user as `plain` has it, then the session's row as `plain'` has it. -/
def parseAccess (plain plain' : DB) (claims : AccessClaims) (now now' : ℤ) : Except Err (User × ℕ) :=
  match parseAccessToken claims now with
  | .error e => .error e
  | .ok claims =>
    match byKey User.id plain.users claims.subject with
    | none => .error .invalidAccessToken
    | some user =>
      if user.disabled then .error .invalidAccessToken
      else
        match plain'.refreshToken claims.refreshID with
        | none => .error .invalidAccessToken
        | some row =>
          if row.userID ≠ user.id ∨ row.revokedAt.isSome = true ∨ row.expiresAt ≤ now' then
            .error .invalidAccessToken
          else .ok (user, row.id)

/-! ## Chains -/

/-- `maxChainHops`. -/
def maxChainHops : ℕ := 1000

/-- The loop of `sessionChain`: the ids followed so far, the next one last, and the last row read. -/
def chainLoop (plain : DB) (userID : ℕ) :
    ℕ → ℕ → List ℕ → Option RefreshToken → List ℕ × Option RefreshToken
  | 0, _, ids, last => (ids, last)
  | hops + 1, next, ids, last =>
    match plain.refreshTokens.find? fun r => decide (r.id = next) && decide (r.userID = userID) with
    | none => (ids, last)
    | some row =>
      match row.replacedBy with
      | none => (ids, some row)
      | some id =>
        if id ∈ ids then (ids, some row) else chainLoop plain userID hops id (ids ++ [id]) (some row)

/-- `sessionChain`. -/
def sessionChain (plain : DB) (userID fromID : ℕ) : List ℕ × Option RefreshToken :=
  chainLoop plain userID maxChainHops fromID [fromID] none

/-- `requesterChain`. -/
def requesterChain (plain : DB) (userID rid : ℕ) (now : ℤ) : Except Err (List ℕ) :=
  match sessionChain plain userID rid with
  | (_, none) => .error .sessionEnded
  | (ids, some head) =>
    if head.revokedAt.isSome = true ∨ head.expiresAt ≤ now then .error .sessionEnded else .ok ids

/-- The chain a request on behalf of `requester` keeps; with no requester, none. -/
def keptChain (plain : DB) (userID requester : ℕ) (now : ℤ) : Except Err (List ℕ) :=
  if requester = 0 then .ok [] else requesterChain plain userID requester now

/-! ## Revoking sessions -/

/-- `expiryPrefilterSlack`. -/
def expiryPrefilterSlack : ℤ := 48 * 3600 * 10 ^ 9

/-- The order of `activeSessionRows`: most recently refreshed first. -/
def sessionBefore (a b : RefreshToken) : Bool :=
  if a.createdAt ≠ b.createdAt then b.createdAt < a.createdAt else b.id < a.id

/-- `activeSessionRows`. -/
def activeSessionRows (plain : DB) (userID : ℕ) (now : ℤ) : List RefreshToken :=
  ((plain.refreshTokens.filter fun r => decide (r.userID = userID) && r.active &&
    decide (now - expiryPrefilterSlack < r.expiresAt)).filter fun r =>
      decide (now < r.expiresAt)).insertionSort fun a b => !sessionBefore b a

/-- `sessionRow`. -/
def sessionRow (plain : DB) (userID rid : ℕ) (rows : List RefreshToken) : Option ℕ :=
  if rid ∈ rows.map RefreshToken.id then some rid
  else (sessionChain plain userID rid).1.find? fun id => decide (id ∈ rows.map RefreshToken.id)

/-- `revokeSessionAs`: whether the session it ended is the requester's own. The clock is read for
the list, and again for the update. -/
def revokeSessionAs (plain db : DB) (userID requester : ℕ) (id : String) (now now' : ℤ) :
    Outcome Bool :=
  match db.lockUserTx userID with
  | none => (.error .sessionNotFound, db)
  | some _ =>
    let rows := activeSessionRows plain userID now
    let own := if requester = 0 then none else sessionRow plain userID requester rows
    if requester ≠ 0 ∧ own = none then (.error .sessionEnded, db)
    else
      match rows.find? fun r => decide (svc.sessionID r.id = id) with
      | none => (.error .sessionNotFound, db)
      | some row =>
        -- a logout may have ended the session since it was listed
        if affected (fun r => decide (r.id = row.id) && r.active) db.refreshTokens = 0 then
          (.error .sessionNotFound, db)
        else
          (.ok (decide (some row.id = own)),
            db.revokeWhere (fun r => decide (r.id = row.id)) now')

/-- `revokeAllSessionsAs`. -/
def revokeAllSessionsAs (plain db : DB) (userID requester : ℕ) (now : ℤ) : Outcome Unit :=
  match db.lockUserTx userID with
  | none => (.error .sessionNotFound, db)
  | some _ =>
    match keptChain plain userID requester now with
    | .error e => (.error e, db)
    | .ok _ => (.ok (), db.revokeAllTx userID now)

/-- `revokeOtherSessions`. -/
def revokeOtherSessions (plain db : DB) (userID keepID : ℕ) (now : ℤ) : Outcome Unit :=
  match db.lockUserTx userID with
  | none => (.error .sessionNotFound, db)
  | some _ =>
    match requesterChain plain userID keepID now with
    | .error e => (.error e, db)
    | .ok keep => (.ok (), db.revokeSessionsButTx userID keep now)

/-! ## Account state -/

/-- `setUserState`, with the rule `check` on the locked row. -/
def setUserState (db : DB) (userID : ℕ) (disable : Bool) (check : User → Option Err) (now : ℤ) :
    Outcome User :=
  match db.lockUserTx userID with
  | none => (.error .userNotFound, db)
  | some locked =>
    match check locked with
    | some e => (.error e, db)
    | none =>
      if locked.disabled = disable then (.ok locked, db)
      else if !disable then
        (.ok { locked with disabledAt := none },
          db.updateUser userID fun u => { u with disabledAt := none })
      else
        (.ok { locked with disabledAt := some now },
          (((db.updateUser userID fun u => { u with disabledAt := some now }).revokeAllTx userID
            now).voidTokensTx userID 0 now fun _ => true))

/-! ## Passwords -/

/-- `ChangePassword`, past the throttle and the password policy: the user as the plain read
`before` sees it, with `hash` the hash of the new password. It answers whether the other sessions
were revoked. -/
def changePassword (before plain db : DB) (userID : ℕ) (current hash : String)
    (keepOtherSessions : Bool) (requester : ℕ) (now : ℤ) : Outcome Bool :=
  match byKey User.id before.users userID with
  | none => (.error .userNotFound, db)
  | some user =>
    if !svc.compare user.passwordHash current then (.error .wrongCurrentPassword, db)
    else
      match db.lockUserTx user.id with
      | none => (.error .userNotFound, db)
      | some locked =>
        if locked.disabled then (.error .accountDisabled, db)
        else if locked.passwordHash ≠ user.passwordHash then (.error .passwordChanged, db)
        else
          match keptChain plain user.id requester now with
          | .error e => (.error e, db)
          | .ok keep =>
            let db' := (db.updateUser user.id fun u =>
              { u with passwordHash := hash }).voidPasswordBoundTokensTx user.id 0 now
            (.ok !keepOtherSessions,
              if keepOtherSessions then db'
              else if keep.length > 0 then db'.revokeSessionsButTx user.id keep now
              else db'.revokeAllTx user.id now)

end Service

end Gombit.Auth
