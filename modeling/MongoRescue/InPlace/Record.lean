import MongoRescue.Backup.Record

/-!
# The record of an in-place point-in-time restore

`models.RestoreRecord` of a restore whose clones replace the original databases
(`internal/models/restore.go`), with the fields that the steps after the restore into the clones and
the recovery of a stopped restore read or set, and the texts they write into it.
-/

namespace MongoRescue.InPlace

/-- What `errors.Is` tells apart. -/
inductive ErrKind
  | other
  | full
  | busy
  | deadlineExceeded
  | chainEnded
  deriving DecidableEq

structure Err where
  kind : ErrKind := .other
  text : String
  deriving DecidableEq

/-- `fmt.Errorf("<before>%w<after>", err)`. -/
def Err.wrap (e : Err) (before : String) (after : String := "") : Err :=
  { e with text := before ++ e.text ++ after }

inductive RestoreStatus
  | pending
  | inProgress
  | completed
  | failed
  | cancelled
  deriving DecidableEq

/-- How far an in-place restore got. -/
inductive Stage
  | restoring
  | safetyBackup
  | pausing
  | swapping
  | resuming
  | done
  deriving DecidableEq

structure CollectionCount where
  name : String
  view : Bool := false
  documents : Int := 0
  deriving DecidableEq

structure PITRCloneSnapshot where
  database : String
  clone : String
  collections : List CollectionCount
  deriving DecidableEq

structure PITRInPlace where
  databases : List String
  stage : Stage := .restoring
  safetyBackupIDs : List String := []
  streamWasEnabled : Bool := false
  streamPaused : Bool := false
  streamResumed : Bool := false
  swapStarted : Bool := false
  snapshots : List PITRCloneSnapshot := []
  swapped : List String := []
  keepClone : Bool := false
  newBaseID : String := ""
  deriving DecidableEq

structure PITRRestore where
  streamID : String
  cloneSuffix : String
  clones : List String
  inPlace : PITRInPlace
  deriving DecidableEq

structure RestoreRecord where
  id : String
  targetConnectionID : String
  targetDatabase : String := ""
  status : RestoreStatus := .inProgress
  warning : String := ""
  errorMessage : String := ""
  pitr : PITRRestore
  deriving DecidableEq

namespace RestoreRecord

def ip (rec : RestoreRecord) : PITRInPlace := rec.pitr.inPlace

def setIP (rec : RestoreRecord) (ip : PITRInPlace) : RestoreRecord :=
  { rec with pitr := { rec.pitr with inPlace := ip } }

end RestoreRecord

/-- What `PreparePITR` takes from an in-place request, with the ID and the clone suffix it generates. -/
structure Request where
  id : String
  connectionID : String
  streamID : String
  suffix : String
  databases : List String
  keepClone : Bool := false

def Request.clones (req : Request) : List String := req.databases.map (· ++ req.suffix)

/-- `PreparePITR`: the record of a restore that starts. -/
def preparePITR (req : Request) : RestoreRecord :=
  { id := req.id, targetConnectionID := req.connectionID
    targetDatabase := ",".intercalate req.clones
    pitr :=
      { streamID := req.streamID, cloneSuffix := req.suffix, clones := req.clones
        inPlace := { databases := req.databases, keepClone := req.keepClone } } }

/-! ## Texts -/

def addInPlaceWarning (rec : RestoreRecord) (w : String) : RestoreRecord :=
  { rec with warning := (if rec.warning ≠ "" then rec.warning ++ "; " else rec.warning) ++ w }

def finishCommand (suffix db : String) : String :=
  let clone := db ++ suffix
  "mongodump --uri=\"<connection URI>\" --archive --db=" ++ clone
    ++ " | mongorestore --uri=\"<connection URI>\" --archive --nsInclude='" ++ clone
    ++ ".*' --nsFrom='" ++ clone ++ ".*' --nsTo='" ++ db ++ ".*' --drop"

def backRequest (connectionID : String) (id db : String) : String :=
  "POST /api/v1/restore \x7b\"backup_id\":\"" ++ id ++ "\",\"target_connection_id\":\"" ++ connectionID
    ++ "\",\"safe_clone\":false,\"confirm_in_place\":true,\"drop_target\":true\x7d (restores " ++ db ++ ")"

/-- `swapFailedMessage`: how to recover from a swap that failed with `cause` (redacted). -/
def swapFailedMessage (rec : RestoreRecord) (cause : String) : String :=
  let ip := rec.ip
  let untouched := ip.databases.filter (fun db => !ip.swapped.contains db)
  let back := if ip.safetyBackupIDs.length = ip.databases.length then
      List.zipWith (backRequest rec.targetConnectionID) ip.safetyBackupIDs ip.databases
    else []
  "replacing the original databases failed: " ++ cause ++ "."
    ++ (if ip.swapped ≠ [] then
        " " ++ ", ".intercalate ip.swapped ++ " already hold the restored state." else "")
    ++ (if untouched ≠ [] then
        " " ++ ", ".intercalate untouched ++ " may be partially replaced (the first) or untouched." else "")
    ++ " The restored state is kept in the clone(s) " ++ ", ".intercalate rec.pitr.clones
    ++ " and the state before the swap in the safety backup(s) " ++ ", ".intercalate ip.safetyBackupIDs ++ "."
    ++ (if untouched ≠ [] then
        " To finish, copy each remaining clone over its original: "
          ++ "; ".intercalate (untouched.map (finishCommand rec.pitr.cloneSuffix))
          ++ ", then drop the clones." else "")
    ++ (if back ≠ [] then
        " To go back instead, restore each safety backup in place: " ++ "; ".intercalate back ++ "." else "")

def errRestoreRecordNotSaved : String := "the restore record could not be saved"

def RestoreRecord.failUnsaved (rec : RestoreRecord) (cause note : String) : RestoreRecord :=
  { rec with
    status := if rec.status = .cancelled then .cancelled else .failed
    errorMessage :=
      if rec.errorMessage.startsWith errRestoreRecordNotSaved then rec.errorMessage
      else
        errRestoreRecordNotSaved ++ (if cause ≠ "" then " (" ++ cause ++ ")" else "") ++ note
          ++ (if rec.errorMessage ≠ "" then "; the run itself ended with: " ++ rec.errorMessage else "") }

/-! ## Comparing listings -/

/-- How the listed collection `w` differs from the one of that name in `got`. -/
def differs (got : List CollectionCount) (w : CollectionCount) : Option String :=
  match got.find? (·.name = w.name) with
  | none => some (w.name ++ " is missing")
  | some g =>
    if g.view ≠ w.view then some (w.name ++ " changed kind")
    else if !w.view && g.documents ≠ w.documents then
      some (w.name ++ " has " ++ toString g.documents ++ " documents, not " ++ toString w.documents)
    else none

/-- `collectionDiff`: how `got` differs from `want`, empty when it holds every collection of it with its
kind and count. Collection names are unique in a listing. -/
def collectionDiff (want got : List CollectionCount) (exact : Bool) : String :=
  let changed := want.filterMap (differs got)
  let extra := if exact then
      (got.filter fun g => want.all (·.name ≠ g.name)).map (·.name ++ " is new")
    else []
  ", ".intercalate ((changed ++ extra).mergeSort (· ≤ ·))

def snapshotOf (ip : PITRInPlace) (db : String) : Option PITRCloneSnapshot :=
  ip.snapshots.find? (·.database = db)

end MongoRescue.InPlace
