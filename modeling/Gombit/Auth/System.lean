import Gombit.Auth.OneTime
import Gombit.Auth.Sessions
import Gombit.Foundations.Run

/-!
# The auth service over one database

Any number of processes send requests against the same tables. A `World` is the committed rows
and the states committed before: what a request has read plainly may be from any of them, so a
request that reads before it waits for a lock, or over an old snapshot, is one step that looks at
an earlier state. What it does under the user's lock is one transaction.

What a step can do to each table is said once:

* `Service.Step.rows`: the refresh tokens (`RowsStep`);
* `Service.Step.users`: the users (`UsersStep`).
-/

namespace Gombit.Auth

open Rows

/-! ## Requests -/

/-- A request, with what is drawn for it. -/
inductive Request
  /-- `startSession`, from a snapshot of the user. -/
  | startSession (user : User) (draw : Draw)
  | rotateRefreshOnce (hash : String) (draw : Draw)
  | revokeRefresh (hash : String)
  | revokeSessionAs (userID requester : ℕ) (id : String)
  | revokeAllSessionsAs (userID requester : ℕ)
  | revokeOtherSessions (userID keepID : ℕ)
  | setUserState (userID : ℕ) (disable : Bool)
  | changePassword (userID : ℕ) (hash : String) (keepOtherSessions : Bool) (requester : ℕ)
  | issueOneTimeToken (userID : ℕ) (f : Flow) (draw : Draw)
  | activateToken (token : OneTimeToken)
  | withdrawToken (token : OneTimeToken)
  | consumeReset (hash newHash : String)
  | consumeVerification (hash : String)
  | consumeEmailChange (hash : String)
  deriving DecidableEq

/-- A request and how it ended: the error it reports, if any. -/
structure Event where
  request : Request
  err : Option Err
  deriving DecidableEq

/-- The committed rows, and the states committed before. -/
structure World where
  db : DB
  past : List DB

namespace World

/-- A state a plain read may see. -/
def Saw (w : World) (old : DB) : Prop := old ∈ w.db :: w.past

/-- The next state is committed. -/
def commit (w : World) (db : DB) : World := ⟨db, w.db :: w.past⟩

/-- No session and no one-time token yet. -/
structure Init (w : World) : Prop where
  past : w.past = []
  users : Keyed User.id w.db.users
  refreshTokens : w.db.refreshTokens = []
  oneTimeTokens : w.db.oneTimeTokens = []

@[simp] theorem commit_db (w : World) (db : DB) : (w.commit db).db = db := rfl

theorem saw_db (w : World) : w.Saw w.db := List.mem_cons_self

theorem saw_commit {w : World} {db old : DB} : (w.commit db).Saw old ↔ old = db ∨ w.Saw old :=
  List.mem_cons

/-- No user has had the password hash: it was salted with random bytes. -/
def FreshHash (w : World) (hash : String) : Prop :=
  ∀ old, w.Saw old → ∀ u ∈ old.users, u.passwordHash ≠ hash

/-- No one-time token has had the id: the column counts up, from one. -/
structure FreshID (w : World) (id : ℕ) : Prop where
  ne_zero : id ≠ 0
  ne : ∀ old, w.Saw old → ∀ t ∈ old.oneTimeTokens, t.id ≠ id

instance (w : World) (hash : String) : Decidable (w.FreshHash hash) :=
  inferInstanceAs (Decidable (∀ old ∈ w.db :: w.past, ∀ u ∈ old.users, u.passwordHash ≠ hash))

instance (w : World) (id : ℕ) : Decidable (w.FreshID id) :=
  decidable_of_iff (id ≠ 0 ∧ ∀ old ∈ w.db :: w.past, ∀ t ∈ old.oneTimeTokens, t.id ≠ id)
    ⟨fun h => ⟨h.1, h.2⟩, fun h => ⟨h.ne_zero, h.ne⟩⟩

end World

/-- The error a request reports. -/
def Outcome.err {α : Type} (o : Outcome α) : Option Err :=
  match o.1 with
  | .error e => some e
  | .ok _ => none

/-- One request. A plain read sees any state committed so far, and each process has its own clock;
`failed` is a transaction the database rolled back. -/
inductive Service.Step (svc : Service) : World → Event → World → Prop
  | startSession {w : World} {old : DB} {user : User} {draw : Draw} (now : ℤ) (hold : w.Saw old)
      (huser : user ∈ old.users) :
      Step svc w ⟨.startSession user draw, Outcome.err (svc.startSession w.db user now draw)⟩
        (w.commit (svc.startSession w.db user now draw).2)
  | rotateRefreshOnce {w : World} {old : DB} {hash : String} {draw : Draw} (now : ℤ)
      (hold : w.Saw old) :
      Step svc w ⟨.rotateRefreshOnce hash draw,
        Outcome.err (svc.rotateRefreshOnce old w.db hash now draw)⟩
        (w.commit (svc.rotateRefreshOnce old w.db hash now draw).2)
  | revokeRefresh {w : World} {old : DB} {hash : String} (now : ℤ) (hold : w.Saw old) :
      Step svc w ⟨.revokeRefresh hash, Outcome.err (revokeRefresh old w.db hash now)⟩
        (w.commit (revokeRefresh old w.db hash now).2)
  | revokeSessionAs {w : World} {old : DB} {userID requester : ℕ} {id : String} (now now' : ℤ)
      (hold : w.Saw old) :
      Step svc w ⟨.revokeSessionAs userID requester id,
        Outcome.err (svc.revokeSessionAs old w.db userID requester id now now')⟩
        (w.commit (svc.revokeSessionAs old w.db userID requester id now now').2)
  | revokeAllSessionsAs {w : World} {old : DB} {userID requester : ℕ} (now : ℤ)
      (hold : w.Saw old) :
      Step svc w ⟨.revokeAllSessionsAs userID requester,
        Outcome.err (revokeAllSessionsAs old w.db userID requester now)⟩
        (w.commit (revokeAllSessionsAs old w.db userID requester now).2)
  | revokeOtherSessions {w : World} {old : DB} {userID keepID : ℕ} (now : ℤ) (hold : w.Saw old) :
      Step svc w ⟨.revokeOtherSessions userID keepID,
        Outcome.err (revokeOtherSessions old w.db userID keepID now)⟩
        (w.commit (revokeOtherSessions old w.db userID keepID now).2)
  | setUserState {w : World} {userID : ℕ} {disable : Bool} (check : User → Option Err) (now : ℤ) :
      Step svc w ⟨.setUserState userID disable,
        Outcome.err (setUserState w.db userID disable check now)⟩
        (w.commit (setUserState w.db userID disable check now).2)
  | changePassword {w : World} {before old : DB} {userID : ℕ} {hash : String}
      {keepOtherSessions : Bool} {requester : ℕ} (current : String) (now : ℤ)
      (hbefore : w.Saw before) (hold : w.Saw old) (hfresh : w.FreshHash hash) :
      Step svc w ⟨.changePassword userID hash keepOtherSessions requester,
        Outcome.err (svc.changePassword before old w.db userID current hash keepOtherSessions
          requester now)⟩
        (w.commit (svc.changePassword before old w.db userID current hash keepOtherSessions
          requester now).2)
  | issueOneTimeToken {w : World} {old : DB} {userID : ℕ} {f : Flow} {draw : Draw} (now : ℤ)
      (hold : w.Saw old) (hfresh : w.FreshID draw.id) :
      Step svc w ⟨.issueOneTimeToken userID f draw,
        Outcome.err (svc.issueOneTimeToken old w.db userID f now draw)⟩
        (w.commit (svc.issueOneTimeToken old w.db userID f now draw).2)
  | activateToken {w : World} {old : DB} {token : OneTimeToken} (now : ℤ) (hold : w.Saw old)
      (htoken : token ∈ old.oneTimeTokens) :
      Step svc w ⟨.activateToken token, Outcome.err (activateToken w.db token now)⟩
        (w.commit (activateToken w.db token now).2)
  | withdrawToken {w : World} {old : DB} {token : OneTimeToken} (hold : w.Saw old)
      (htoken : token ∈ old.oneTimeTokens) :
      Step svc w ⟨.withdrawToken token, none⟩ (w.commit (withdrawToken w.db token))
  | consumeReset {w : World} {screen old : DB} {hash newHash : String} (screened now : ℤ)
      (hscreen : w.Saw screen) (hold : w.Saw old) (hfresh : w.FreshHash newHash) :
      Step svc w ⟨.consumeReset hash newHash,
        Outcome.err (svc.consumeReset screen old w.db hash newHash screened now)⟩
        (w.commit (svc.consumeReset screen old w.db hash newHash screened now).2)
  | consumeVerification {w : World} {old : DB} {hash : String} (now : ℤ) (hold : w.Saw old) :
      Step svc w ⟨.consumeVerification hash,
        Outcome.err (svc.consumeVerification old w.db hash now)⟩
        (w.commit (svc.consumeVerification old w.db hash now).2)
  | consumeEmailChange {w : World} {old : DB} {hash : String} (now : ℤ) (hold : w.Saw old) :
      Step svc w ⟨.consumeEmailChange hash,
        Outcome.err (svc.consumeEmailChange old w.db hash now)⟩
        (w.commit (svc.consumeEmailChange old w.db hash now).2)
  | failed {w : World} {request : Request} :
      Step svc w ⟨request, some .database⟩ (w.commit w.db)

/-! ## Requests that succeed -/

section Committed

variable {svc : Service} {w : World} {plain db' : DB} {now : ℤ}

theorem consumeReset_step {screen : DB} {hash newHash : String} {screened : ℤ} {user : User}
    (hscreen : w.Saw screen) (hplain : w.Saw plain) (hfresh : w.FreshHash newHash)
    (hok : svc.consumeReset screen plain w.db hash newHash screened now = (.ok user, db')) :
    svc.Step w ⟨.consumeReset hash newHash, none⟩ (w.commit db') := by
  have hstep : svc.Step w ⟨.consumeReset hash newHash, _⟩ _ :=
    .consumeReset screened now hscreen hplain hfresh
  rwa [hok] at hstep

theorem changePassword_step {before : DB} {userID requester : ℕ} {current hash : String}
    {keepOtherSessions revoked : Bool} (hbefore : w.Saw before) (hplain : w.Saw plain)
    (hfresh : w.FreshHash hash)
    (hok : svc.changePassword before plain w.db userID current hash keepOtherSessions requester now =
      (.ok revoked, db')) :
    svc.Step w ⟨.changePassword userID hash keepOtherSessions requester, none⟩ (w.commit db') := by
  have hstep : svc.Step w ⟨.changePassword userID hash keepOtherSessions requester, _⟩ _ :=
    .changePassword current now hbefore hplain hfresh
  rwa [hok] at hstep

theorem setUserState_step {userID : ℕ} {disable : Bool} {check : User → Option Err} {user : User}
    (hok : Service.setUserState w.db userID disable check now = (.ok user, db')) :
    svc.Step w ⟨.setUserState userID disable, none⟩ (w.commit db') := by
  have hstep : svc.Step w ⟨.setUserState userID disable, _⟩ _ := .setUserState check now
  rwa [hok] at hstep

end Committed

/-! ## A small system -/

/-- A service with the default lifetimes, whose password hash is the password. -/
def sampleService : Service where
  accessTokenTTL := 900 * 10 ^ 9
  refreshTokenTTL := 7 * 24 * 3600 * 10 ^ 9
  refreshReuseGrace := 30 * 10 ^ 9
  passwordResetKeepSessions := false
  passwordResetTTL := 0
  emailVerificationTTL := 0
  compare hash password := decide (hash = password)
  normalizeEmail := id
  sameEmail a b := decide (a = b)
  sessionID _ := ""

def sampleUser : User where
  id := 1
  email := "user@example.com"
  passwordHash := "password"
  disabledAt := none
  emailVerifiedAt := none
  verifiedEmail := ""

/-- One user, who has not logged in yet. -/
def sampleWorld : World where
  db := { users := [sampleUser], refreshTokens := [], oneTimeTokens := [] }
  past := []

theorem sampleWorld_init : sampleWorld.Init :=
  ⟨rfl, List.nodup_singleton _, rfl, rfl⟩

/-- A login, and the rotation of its token. -/
theorem rotated_run : ∃ w, Run sampleService.Step sampleWorld
    [⟨.startSession sampleUser ⟨1, "first"⟩, none⟩, ⟨.rotateRefreshOnce "first" ⟨2, "second"⟩, none⟩]
      w ∧
    w.db = ⟨[sampleUser],
      [⟨1, 1, "first", 7 * 24 * 3600 * 10 ^ 9, some 0, some 2, 0⟩,
        ⟨2, 1, "second", 7 * 24 * 3600 * 10 ^ 9, none, none, 0⟩], []⟩ :=
  ⟨_, .cons (.startSession 0 sampleWorld.saw_db (by decide))
    (.single (.rotateRefreshOnce 0 (World.saw_db _))), by decide⟩

/-- A login, and a reset link that is mailed after it. -/
theorem mailed_run : ∃ w, Run sampleService.Step sampleWorld
    [⟨.startSession sampleUser ⟨1, "first"⟩, none⟩,
      ⟨.issueOneTimeToken 1 .resetPassword ⟨1, "reset"⟩, none⟩,
      ⟨.activateToken (sampleService.newToken sampleUser .resetPassword 0 ⟨1, "reset"⟩), none⟩] w ∧
    w.db = ⟨[sampleUser], [sampleService.newRow sampleUser 0 ⟨1, "first"⟩],
      [{ sampleService.newToken sampleUser .resetPassword 0 ⟨1, "reset"⟩ with sentAt := some 1 }]⟩ ∧
    w.FreshHash "fresh" :=
  ⟨_, .cons (.startSession 0 sampleWorld.saw_db (by decide))
    (.cons (.issueOneTimeToken 0 (World.saw_db _) (by decide))
      (.single (.activateToken 1 (World.saw_db _) List.mem_cons_self))), by decide, by decide⟩

end Gombit.Auth
