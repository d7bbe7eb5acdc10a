import MongoRescue.PITR.Plan

/-!
# Point-in-time requests

`ValidatePITR` (`internal/models/restore.go`) and the rules for database names it applies
(`internal/models/namespace.go`).
-/

namespace MongoRescue.Restore

/-! ## Database names -/

inductive RequestErr
  | invalidNamespace (why : String)
  | pitrInPlace
  | pitrInPlaceDatabases
  | pitrInPlaceNotConfirmed (why : String)
  | target (e : PITR.PlanErr)
  | other (why : String)
  deriving DecidableEq

def maxDatabaseNameLength : Nat := 63

/-- The characters MongoDB forbids in database names. -/
def databaseNameForbidden : List Char := ['/', '\\', '.', ' ', '"', '$']

def isControl (c : Char) : Bool := c.toNat < 0x20 || c.toNat = 0x7f

def hasControl (s : String) : Bool := s.toList.any isControl

def validateDatabaseName (name : String) : Except RequestErr Unit :=
  if name = "" then .error (.invalidNamespace "database name is required")
  else if maxDatabaseNameLength < name.utf8ByteSize then
    .error (.invalidNamespace ("database name must be at most " ++ toString maxDatabaseNameLength ++ " bytes"))
  else if hasControl name then
    .error (.invalidNamespace "database name must not contain control characters")
  else if name.toList.any (databaseNameForbidden.contains ·) then
    .error (.invalidNamespace "database name must not contain any of / \\ . space \" $")
  else if ['-'].isPrefixOf name.toList then
    .error (.invalidNamespace "database name must not start with -")
  else .ok ()

def rescueInfix : String := "_rescue_"

/-- The name is one MongoRescue gives to a database it restores into. -/
def isRescueClone (db : String) : Bool :=
  db.toList.tails.any (rescueInfix.toList.isPrefixOf ·)

/-! ## Requests -/

/-- The stream and the moment of a point-in-time restore. -/
structure PITRTarget where
  streamID : String
  atTime : Option Int := none
  ts : Option PITR.Timestamp := none
  inPlace : Bool := false
  confirmInPlace : String := ""
  keepClone : Bool := false
  deriving DecidableEq

def PITRTarget.target (t : PITRTarget) : PITR.Target where
  atTime := t.atTime.getD Go.zeroTime
  ts := t.ts

/-- The fields of a restore request that `ValidatePITR` reads. -/
structure RestoreRequest where
  backupID : String := ""
  targetDatabase : String := ""
  safeClone : Option Bool := none
  confirmInPlace : Bool := false
  dropTarget : Bool := false
  selectedCollections : List String := []
  dryRun : Bool := false
  restoreUsersAndRoles : Bool := false
  pitr : Option PITRTarget := none
  databases : List String := []
  deriving DecidableEq

namespace RestoreRequest

def isSafeClone (r : RestoreRequest) : Bool := r.safeClone.getD true

/-- The restore would write into a database that has a name already. -/
def inPlace (r : RestoreRequest) : Bool := !r.isSafeClone || !Go.blank r.targetDatabase

/-- The trimmed database selection. -/
def pitrDatabases (r : RestoreRequest) : List String :=
  (r.databases.map Go.trimSpace).filter (· ≠ "")

/-- Checks the selection, `seen` being the databases before. -/
def checkDatabases (seen : List String) : List String → Except RequestErr Unit
  | [] => .ok ()
  | entry :: rest =>
    let db := Go.trimSpace entry
    match validateDatabaseName db with
    | .error (.invalidNamespace why) => .error (.invalidNamespace ("databases: " ++ why))
    | .error e => .error e
    | .ok () =>
      if db = "admin" ∨ db = "config" ∨ db = "local" then
        .error (.other ("databases: " ++ db ++ " is never restored to a point in time"))
      else if isRescueClone db then
        .error (.other ("databases: " ++ db ++
          " is a database MongoRescue restored into; point-in-time restores leave clones out"))
      else if db ∈ seen then .error (.other ("databases: " ++ db ++ " is listed twice"))
      else checkDatabases (db :: seen) rest

/-- The selection of an in-place restore and its confirmation. -/
def validatePITRInPlace (r : RestoreRequest) (t : PITRTarget) : Except RequestErr Unit :=
  let confirmed := (((t.confirmInPlace.toList.splitOn ',').map String.ofList).map Go.trimSpace).filter (· ≠ "")
  let want := r.pitrDatabases.insertionSort (· ≤ ·)
  if r.pitrDatabases = [] then .error .pitrInPlaceDatabases
  else if want ≠ confirmed.insertionSort (· ≤ ·) then
    .error (.pitrInPlaceNotConfirmed ("the restore replaces " ++ ",".intercalate want))
  else .ok ()

def validatePITR (r : RestoreRequest) : Except RequestErr Unit :=
  match r.pitr with
  | none =>
    if r.databases ≠ [] then
      .error (.other "\"databases\" is only used by point-in-time restores (\"pitr\")")
    else .ok ()
  | some t =>
    if Go.blank t.streamID then .error (.other "pitr.stream_id is required")
    else if t.atTime.isNone = t.ts.isNone then
      .error (.other "set exactly one of pitr.at and pitr.ts")
    else if r.inPlace || r.confirmInPlace then .error .pitrInPlace
    else if !Go.blank r.backupID then
      .error (.other "a point-in-time restore chooses its base backup itself; omit backup_id")
    else if r.dryRun then
      .error (.other "dry runs are not offered for point-in-time restores; run the preflight instead")
    else if r.dropTarget then
      .error (.other "drop_target does not apply to point-in-time restores, which create new databases")
    else if r.selectedCollections ≠ [] then
      .error (.other "selected_collections is not offered for point-in-time restores; use databases")
    else if r.restoreUsersAndRoles then
      .error (.other "restore_users_and_roles is not offered for point-in-time restores")
    else match t.target.limit with
      | .error e => .error (.target e)
      | .ok _ =>
        if !t.inPlace && (!Go.blank t.confirmInPlace || t.keepClone) then
          .error (.other
            "pitr.confirm_in_place and pitr.keep_clone only apply with \"pitr.in_place\": true")
        else match checkDatabases [] r.databases with
          | .error e => .error e
          | .ok () => if t.inPlace then r.validatePITRInPlace t else .ok ()

end RestoreRequest

end MongoRescue.Restore
