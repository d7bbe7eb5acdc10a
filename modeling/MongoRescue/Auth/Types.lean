import MongoRescue.Lib.Go

/-!
# Users and roles

`internal/auth`: the dashboard roles, the connections a user may touch, and the part of a stored user
that signing in and the two-person rule read.
-/

namespace MongoRescue.Auth

inductive Role
  | viewer
  | operator
  | admin
  deriving DecidableEq

/-- `roleRank`; no role ranks 0. -/
def roleRank : Option Role → Nat
  | none => 0
  | some .viewer => 1
  | some .operator => 2
  | some .admin => 3

/-- The connections a user may touch: every one, or exactly a list. -/
structure ConnectionAccess where
  all : Bool := false
  ids : List String := []
  deriving DecidableEq

def everyConnection : ConnectionAccess := { all := true }

/-- Where a user signs in. -/
inductive Provider
  | localUser
  | oidc
  deriving DecidableEq

structure User where
  id : String
  username : String
  passwordHash : String := ""
  role : Role
  provider : Provider := .localUser
  /-- The issuer and subject of a single sign-on user; empty for a local one. -/
  subject : String := ""
  access : ConnectionAccess := {}
  /-- When the role was last set, or the password by someone else. -/
  roleChangedAt : Int := 0
  createdAt : Int := 0
  updatedAt : Int := 0
  lastLoginAt : Option Int := none
  mustChangePassword : Bool := false
  deriving DecidableEq

def countAdmins (users : List User) : Nat := users.countP (·.role = .admin)

/-- The column is `COLLATE NOCASE`: names differ only by the case of ASCII letters. -/
def sameName (a b : String) : Bool := a.toLower = b.toLower

end MongoRescue.Auth
