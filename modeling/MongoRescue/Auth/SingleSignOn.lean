import MongoRescue.Auth.Types
import Mathlib.Data.List.Sort

/-!
# Single sign-on

Signing in through an OpenID Connect provider: `identityFrom` (`internal/auth/oidc/oidc.go`) reads an
identity out of the claims of a verified ID token, `loginOIDC` (`internal/auth/external.go`) maps its
groups to a role and `signInExternalUser` (`internal/store/auth.go`) finds or creates its user.
`oidcGrantsAdmin` and `oidcRevokesAdmin` (`internal/settings/protection.go`) tell which changes of the
settings need a second administrator. Tokens are taken as verified for an issuer and a client; sessions
are left out but for the failure to start one.
-/

namespace MongoRescue.Auth

/-! ## Settings -/

/-- A group and the role its members get, as `validateOIDC` leaves it. -/
structure OIDCRoleMapping where
  group : String
  role : Role
  access : ConnectionAccess := everyConnection
  trimmed : Go.trimSpace group = group
  named : group ≠ ""

/-- `settings.OIDC`, without what only the browser sees. -/
structure OIDC where
  enabled : Bool := false
  issuer : String := ""
  clientID : String := ""
  usernameClaim : String := "preferred_username"
  groupsClaim : String := "groups"
  roleMappings : List OIDCRoleMapping := []
  defaultRole : Option Role := none
  allowedEmailDomains : List String := []
  autoCreateUsers : Bool := true

def oidcAdminGroups (o : OIDC) : List String :=
  (o.roleMappings.filter (·.role = .admin)).map fun m => Go.trimSpace m.group

def oidcGrantsAdmin (cur next : OIDC) : Bool :=
  let groups := oidcAdminGroups next
  if !next.enabled || groups.isEmpty then false
  else if !cur.enabled || cur.issuer ≠ next.issuer || cur.clientID ≠ next.clientID ||
      cur.groupsClaim ≠ next.groupsClaim then true
  else groups.any fun g => !(oidcAdminGroups cur).contains g

/-- `OIDCRevokesAdmin`; `oidcAdmins`: single sign-on users hold the admin role. -/
def oidcRevokesAdmin (cur next : OIDC) (oidcAdmins : Bool) : Bool :=
  let old := oidcAdminGroups cur
  (!old.isEmpty && (cur.issuer ≠ next.issuer || cur.clientID ≠ next.clientID ||
      cur.groupsClaim ≠ next.groupsClaim)) ||
    old.any (fun g => !(oidcAdminGroups next).contains g) ||
    (oidcAdmins && cur.roleMappings.isEmpty && !next.roleMappings.isEmpty)

def hasOIDCAdmins (users : List User) : Bool := users.any fun u => u.role = .admin && u.provider = .oidc

/-! ## Policy -/

structure RoleMapping where
  group : String
  role : Role
  access : ConnectionAccess
  deriving DecidableEq

structure OIDCPolicy where
  enabled : Bool
  roleMappings : List RoleMapping
  defaultRole : Option Role
  allowedEmailDomains : List String
  autoCreateUsers : Bool
  deriving DecidableEq

/-- `oidcPolicy` (`internal/app/oidc.go`): off in the desktop app. -/
def oidcPolicy (o : OIDC) (desktop : Bool) : OIDCPolicy where
  enabled := o.enabled && !desktop
  roleMappings := o.roleMappings.map fun m => ⟨m.group, m.role, m.access⟩
  defaultRole := o.defaultRole
  allowedEmailDomains := o.allowedEmailDomains
  autoCreateUsers := o.autoCreateUsers

namespace OIDCPolicy

/-- One round of the loop of `MapRole`. -/
def better (groups : List String) (best : Option Role) (m : RoleMapping) : Option Role :=
  if m.group ≠ "" ∧ roleRank best < roleRank (some m.role) ∧ m.group ∈ groups then some m.role else best

/-- `MapRole`: the highest role of the mappings that match, else the default role, which is never
admin. -/
def mapRole (p : OIDCPolicy) (groups : List String) : Option Role :=
  let best := p.roleMappings.foldl (better groups) none
  if best = none ∧ (p.defaultRole = some .viewer ∨ p.defaultRole = some .operator) then p.defaultRole
  else best

/-- `MapConnections`: the union over the mappings that grant the role. -/
def mapConnections (p : OIDCPolicy) (groups : List String) (role : Option Role) : ConnectionAccess :=
  let granting := p.roleMappings.filter fun m => m.group ≠ "" ∧ some m.role = role ∧ m.group ∈ groups
  if role = some .admin ∨ granting.any (·.access.all) ∨ granting.isEmpty then everyConnection
  else { ids := ((granting.flatMap (·.access.ids)).insertionSort (· ≤ ·)).destutter (· ≠ ·) }

/-- The part after the last `@`, when neither part is empty. -/
def emailDomain (email : String) : Option String :=
  let rev := email.toList.reverse
  let domain := (rev.takeWhile (· ≠ '@')).reverse
  if domain = [] ∨ (rev.dropWhile (· ≠ '@')).length ≤ 1 then none else some (String.ofList domain)

/-- `EmailDomainAllowed`, with `strings.ToLower`. -/
def emailDomainAllowed (toLower : String → String) (p : OIDCPolicy) (email : String)
    (verified : Bool) : Bool :=
  if p.allowedEmailDomains.isEmpty then true
  else if !verified then false
  else match emailDomain email with
    | none => false
    | some domain =>
      p.allowedEmailDomains.any fun d => d ≠ "" && toLower (Go.trimSpace d) = toLower domain

end OIDCPolicy

/-! ## Identities -/

/-- A claim of an ID token. -/
inductive Claim
  | str (s : String)
  | bool (b : Bool)
  | arr (l : List Claim)
  | obj (l : List (String × Claim))
  | other

abbrev Claims := List (String × Claim)

def Claims.get (claims : Claims) (name : String) : Option Claim :=
  (claims.find? (·.1 = name)).map (·.2)

/-- `claims[name].(string)`, empty for anything else. -/
def Claims.string (claims : Claims) (name : String) : String :=
  match claims.get name with
  | some (.str s) => s
  | _ => ""

/-- The claim at a path of names. -/
def Claims.at (claims : Claims) : List String → Option Claim
  | [] => some (.obj claims)
  | seg :: rest =>
    match claims.get seg, rest with
    | some c, [] => some c
    | some (.obj inner), rest => Claims.at inner rest
    | _, _ => none

def maxGroups : Nat := 1000

def Claim.groups : Claim → List String
  | .str s => if s = "" then [] else [s]
  | .arr l => (l.filterMap fun c => match c with
      | .str s => if s = "" then none else some s
      | _ => none).take maxGroups
  | _ => []

/-- `groupsAt`: a claim of exactly that name first, else the dot path. -/
def groupsAt (claims : Claims) (name : String) : List String :=
  if name = "" then []
  else (((claims.get name).or (Claims.at claims (name.splitOn "."))).map Claim.groups).getD []

/-- The characters of a username. -/
def isNameChar (c : Char) : Bool :=
  ('a' ≤ c && c ≤ 'z') || ('A' ≤ c && c ≤ 'Z') || ('0' ≤ c && c ≤ '9') ||
    c = '.' || c = '_' || c = '@' || c = '-'

def maxUsernameLength : Nat := 64

def cleanUsername (s : String) : String :=
  let out := ((Go.trimSpace s).toList.map fun c => if isNameChar c then c else '_').take
    maxUsernameLength
  let separator := fun c : Char => c = '.' || c = '_' || c = '-' || c = '@'
  let out := ((out.dropWhile separator).reverse.dropWhile separator).reverse
  if out.all (· = '_') then "" else String.ofList out

/-- A verified ID token. -/
structure Token where
  issuer : String
  /-- The client it was issued to. -/
  clientID : String
  subject : String
  claims : Claims

structure ExternalIdentity where
  issuer : String
  subject : String
  username : String
  email : String
  emailVerified : Bool
  groups : List String
  deriving DecidableEq

def externalSubject (issuer subject : String) : String := issuer ++ "#" ++ subject

/-- The name of a new user, from the first candidate that has one. `sha256` gives the digest of a
string. -/
def usernameFrom (sha256 : String → Go.Bytes) (t : Token) (usernameClaim : String) : String :=
  let claim := if usernameClaim = "" then "preferred_username" else usernameClaim
  match [t.claims.string claim, t.claims.string "email", t.subject].find? (cleanUsername · ≠ "") with
  | some candidate => cleanUsername candidate
  | none => "user-" ++ Go.hexEncode ((sha256 (externalSubject t.issuer t.subject)).take 6)

def identityFrom (sha256 : String → Go.Bytes) (t : Token) (o : OIDC) : ExternalIdentity where
  issuer := t.issuer
  subject := t.subject
  username := usernameFrom sha256 t o.usernameClaim
  email := t.claims.string "email"
  emailVerified := match t.claims.get "email_verified" with
    | some (.bool b) => b
    | _ => false
  groups := groupsAt t.claims o.groupsClaim

/-! ## Signing in -/

inductive SignInErr
  | disabled
  | tokenInvalid
  | invalidIdentity
  | domainNotAllowed
  | noRole
  | unknownExternalUser
  | accountConflict
  | inconsistentIdentity
  /-- No random ID, a failed statement, or no session. -/
  | internal
  deriving DecidableEq

structure ExternalSignIn where
  subject : String
  newUserID : String
  username : String
  role : Option Role
  roleOnCreate : Bool
  connections : ConnectionAccess
  autoCreate : Bool
  keepAdmin : Bool
  atTime : Int
  deriving DecidableEq

structure ExternalSignInResult where
  user : User
  created : Bool := false
  roleFrom : Option Role := none
  roleKept : Bool := false
  demotionHeld : Bool := false
  deriving DecidableEq

def newExternalUser (i : ExternalSignIn) (role : Role) : User where
  id := i.newUserID
  username := i.username
  role := role
  provider := .oidc
  subject := i.subject
  access := if i.roleOnCreate || role = .admin then everyConnection else i.connections
  roleChangedAt := i.atTime
  createdAt := i.atTime
  updatedAt := i.atTime
  lastLoginAt := some i.atTime

/-- `insertUser`: IDs, names and subjects are unique. -/
def insertUser (users : List User) (u : User) : Option (List User) :=
  if users.any fun x => x.id = u.id || sameName x.username u.username ||
      (u.subject ≠ "" && x.subject = u.subject) then none
  else some (users ++ [u])

/-- The role of the sign-in is not applied to the user: it would demote an administrator whom the
two-person rule keeps, or the last one. -/
def keepsRole (users : List User) (i : ExternalSignIn) (u : User) : Bool :=
  u.role = .admin && (i.keepAdmin || countAdmins users ≤ 1)

def signInExisting (users : List User) (i : ExternalSignIn) (u : User) : ExternalSignInResult :=
  let access := fun role : Role => if role = .admin then everyConnection else i.connections
  if i.roleOnCreate then
    { user := { u with updatedAt := i.atTime, lastLoginAt := some i.atTime }, roleFrom := some u.role }
  else match i.role with
    | none => { user := { u with updatedAt := i.atTime, lastLoginAt := some i.atTime }
                roleFrom := some u.role }
    | some role =>
      if u.role = role then
        { user := { u with updatedAt := i.atTime, lastLoginAt := some i.atTime, access := access u.role }
          roleFrom := some u.role }
      else if keepsRole users i u then
        { user := { u with updatedAt := i.atTime, lastLoginAt := some i.atTime, access := access u.role }
          roleFrom := some u.role, roleKept := true, demotionHeld := i.keepAdmin }
      else
        { user := { u with role, roleChangedAt := i.atTime, updatedAt := i.atTime
                           lastLoginAt := some i.atTime, access := access role }
          roleFrom := some u.role }

/-- `SignInExternalUser`: the transaction, on the table of users. -/
def signInExternalUser (users : List User) (i : ExternalSignIn) :
    Except SignInErr (ExternalSignInResult × List User) :=
  if i.subject = "" ∨ (i.role = none ∧ !i.roleOnCreate) then .error .invalidIdentity
  else match users.find? (·.subject = i.subject) with
    | none =>
      if !i.autoCreate then .error .unknownExternalUser
      else match i.role with
        | none => .error .noRole
        | some role =>
          match insertUser users (newExternalUser i role) with
          | none => .error .accountConflict
          | some users => .ok ({ user := newExternalUser i role, created := true }, users)
    | some u =>
      if u.provider ≠ .oidc then .error .inconsistentIdentity
      else
        let res := signInExisting users i u
        .ok (res, users.map fun x => if x.id = u.id then res.user else x)

/-- What a sign-in meets besides the settings and the users. -/
structure SignInEnv where
  toLower : String → String
  sha256 : String → Go.Bytes
  desktop : Bool := false
  /-- The new ID; `none` when there are no random bytes. -/
  newID : Option String
  /-- The two-person rule holds grants of the admin role back. -/
  holdsAdminGrant : Bool := false
  now : Int := 0
  storeFails : Bool := false
  sessionFails : Bool := false

/-- `OIDCLogin`, without the session. -/
structure OIDCLogin where
  user : User
  created : Bool
  roleFrom : Option Role
  roleTo : Role
  roleKept : Bool
  demotionHeld : Bool
  /-- The role the provider's groups gave the user. -/
  mappedRole : Option Role
  deriving DecidableEq

def maxIssuerLength : Nat := 2048

def maxSubjectLength : Nat := 255

def validUsername (name : String) : Bool :=
  name ≠ "" && Go.byteLen name ≤ maxUsernameLength && name.toList.all isNameChar

/-- The identity has an issuer and a subject, neither too long. -/
def ExternalIdentity.complete (id : ExternalIdentity) : Bool :=
  id.issuer ≠ "" && id.subject ≠ "" && Go.byteLen id.issuer ≤ maxIssuerLength &&
    Go.byteLen id.subject ≤ maxSubjectLength

/-- What the store is asked. -/
def externalSignIn (env : SignInEnv) (policy : OIDCPolicy) (id : ExternalIdentity) (userID : String) :
    ExternalSignIn :=
  let role := policy.mapRole id.groups
  { subject := externalSubject id.issuer id.subject, newUserID := userID
    username := Go.trimSpace id.username, role, roleOnCreate := policy.roleMappings.isEmpty
    connections := policy.mapConnections id.groups role, autoCreate := policy.autoCreateUsers
    keepAdmin := env.holdsAdminGrant, atTime := env.now }

/-- What is answered, from the result of the store. -/
def oidcLogin (res : ExternalSignInResult) (mappedRole : Option Role) : OIDCLogin where
  user := res.user
  created := res.created
  roleFrom := res.roleFrom
  roleTo := res.user.role
  roleKept := res.roleKept
  demotionHeld := res.demotionHeld
  mappedRole := mappedRole

def loginOIDC (env : SignInEnv) (policy : OIDCPolicy) (users : List User) (id : ExternalIdentity) :
    Except SignInErr (OIDCLogin × List User) :=
  if !policy.enabled then .error .disabled
  else if !id.complete then .error .invalidIdentity
  else if !policy.emailDomainAllowed env.toLower id.email id.emailVerified then
    .error .domainNotAllowed
  else
    let role := policy.mapRole id.groups
    -- without mappings the default role is only that of new users
    if role = none ∧ !policy.roleMappings.isEmpty then .error .noRole
    else if !validUsername (Go.trimSpace id.username) then .error .invalidIdentity
    else match env.newID with
      | none => .error .internal
      | some userID =>
        if env.storeFails then .error .internal
        else match signInExternalUser users (externalSignIn env policy id userID) with
          | .error e => .error e
          | .ok (res, users) =>
            if env.sessionFails then .error .internal else .ok (oidcLogin res role, users)

/-- A sign-in with a token under the settings: the token must be the issuer's, for the client. -/
def signIn (env : SignInEnv) (o : OIDC) (users : List User) (t : Token) :
    Except SignInErr (OIDCLogin × List User) :=
  if t.issuer ≠ o.issuer ∨ t.clientID ≠ o.clientID then .error .tokenInvalid
  else loginOIDC env (oidcPolicy o env.desktop) users (identityFrom env.sha256 t o)

end MongoRescue.Auth
