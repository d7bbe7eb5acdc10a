import MongoRescue.InPlace.Record
import MongoRescue.Lib.Crash

/-!
# An in-place point-in-time restore and its recovery

`internal/operations/pitrinplace.go`: what follows the restore into the clones (`finishPITRInPlace`: the
safety backups, the pause of the stream, the swap, the end of the clones, the resumed stream), the final
save (`unsaved.go`), and what the next start does with a record that is still in progress
(`CleanupInterruptedPITR`, called by the sweep of `app.go`). With it the parts of other packages whose
steps matter: the swap (`restore/pitrswap.go`), the clones' end (`restore/pitr.go`), pausing and resuming
a stream (`pitr/collector/pause.go`) and `diskguard.SaveFinal`.

Each call takes effect in one step; a process may stop after any of them. A save that fails may have
taken effect. What the tools and servers list, and which calls fail, is the environment's part.
-/

namespace MongoRescue.InPlace

open Conc (Proc)

/-! ## What a stop leaves -/

/-- The databases on the target server: those that exist, the originals the swap wrote to, and those
that hold the restored state (the swap found its copy complete and dropped what the clone lacks). -/
structure Server where
  databases : List String := []
  written : List String := []
  replaced : List String := []
  deriving DecidableEq

/-- The stream: `paused` once the restore disabled it while it was enabled. -/
structure Stream where
  enabled : Bool
  paused : Bool := false
  alerts : List Err := []
  deriving DecidableEq

structure BackupRecord where
  id : String
  database : String
  status : Backup.Status := .inProgress
  errorMessage : String := ""
  deriving DecidableEq

/-- Safety backups: the archives stored whole (ID and database), the records saved, and those that wait
for a background save. -/
structure Vault where
  archives : List (String × String) := []
  saved : List BackupRecord := []
  waiting : List BackupRecord := []
  deriving DecidableEq

@[ext] structure World where
  stored : RestoreRecord
  server : Server := {}
  stream : Stream
  vault : Vault := {}
  deriving DecidableEq

/-! ## Calls -/

/-- The limit of the calls a resume makes: one second during a shutdown and at a start. -/
inductive Limit
  | second
  | minutes
  deriving DecidableEq

/-- What `Backup.Execute` returned; `none` for a nil record. -/
structure Executed where
  status : Option Backup.Status
  message : String := ""
  err : Option Err := none

inductive Op
  | save (rec : RestoreRecord)
  | deferSave (rec : RestoreRecord)
  | listRestores
  | collectionCounts (db : String)
  | writeConfig
  | cancellation
  | copyDatabase (db clone : String)
  | dropCollection (db coll : String)
  | printReplaced (db : String)
  | dropDatabase (db : String)
  | resolveTarget
  | prepareBackup (db : String)
  | saveBackup (b : BackupRecord)
  | deferBackup (b : BackupRecord)
  | executeBackup (b : BackupRecord)
  | getStream (l : Limit)
  | updateStream (enabled : Bool) (l : Limit)
  | waitStopped
  | lockStream
  | listChains
  | endChain (id : String)
  | waitChain
  | contextDone
  | startBaseBackup
  | startRun
  | resolveConnection
  | alert (err : Err)

def Ans : Op → Type
  | .save _ => Except Err Unit
  | .deferSave _ => Unit
  | .listRestores => Except Err RestoreRecord
  | .collectionCounts _ => Except Err (List CollectionCount)
  | .writeConfig => Except Err Unit
  | .cancellation => Except Err Unit
  | .copyDatabase _ _ => Except Err Unit
  | .dropCollection _ _ => Except Err Unit
  | .printReplaced _ => Unit
  | .dropDatabase _ => Except Err Unit
  | .resolveTarget => Except Err Unit
  | .prepareBackup _ => Except Err BackupRecord
  | .saveBackup _ => Except Err Unit
  | .deferBackup _ => Unit
  | .executeBackup _ => Executed
  | .getStream _ => Except Err Bool
  | .updateStream _ _ => Except Err Unit
  | .waitStopped => Except Err Unit
  | .lockStream => Except Err Unit
  | .listChains => Except Err (List String)
  | .endChain _ => Except Err Unit
  | .waitChain => Except Err Unit
  | .contextDone => Bool
  | .startBaseBackup => Except Err String
  | .startRun => Except Err Bool
  | .resolveConnection => Except Err Unit
  | .alert _ => Unit

def calls : Conc.Sig := ⟨Op, Ans⟩

abbrev Act := Proc calls

def call (o : Op) : Act (Ans o) := Proc.op (S := calls) o

namespace Call

def save (rec : RestoreRecord) : Act (Except Err Unit) := call (.save rec)

/-- `DiskGuard.Defer`: the record is saved in the background, unless the process stops before. -/
def deferSave (rec : RestoreRecord) : Act Unit := call (.deferSave rec)

/-- `ListRestoreRecords`, of which the restore's own record is kept. -/
def listRestores : Act (Except Err RestoreRecord) := call .listRestores

def collectionCounts (db : String) : Act (Except Err (List CollectionCount)) :=
  call (.collectionCounts db)

def writeConfig : Act (Except Err Unit) := call .writeConfig

/-- `runs.CancellationOf`. -/
def cancellation : Act (Except Err Unit) := call .cancellation

/-- `copyDatabase`: mongodump of the clone piped into `mongorestore --drop`. -/
def copyDatabase (db clone : String) : Act (Except Err Unit) := call (.copyDatabase db clone)

def dropCollection (db coll : String) : Act (Except Err Unit) := call (.dropCollection db coll)

/-- The line "database … now holds the restored state" of the run's log. -/
def printReplaced (db : String) : Act Unit := call (.printReplaced db)

def dropDatabase (db : String) : Act (Except Err Unit) := call (.dropDatabase db)

def resolveTarget : Act (Except Err Unit) := call .resolveTarget

def prepareBackup (db : String) : Act (Except Err BackupRecord) := call (.prepareBackup db)

def saveBackup (b : BackupRecord) : Act (Except Err Unit) := call (.saveBackup b)

def deferBackup (b : BackupRecord) : Act Unit := call (.deferBackup b)

def executeBackup (b : BackupRecord) : Act Executed := call (.executeBackup b)

def getStream (l : Limit) : Act (Except Err Bool) := call (.getStream l)

def updateStream (enabled : Bool) (l : Limit) : Act (Except Err Unit) := call (.updateStream enabled l)

def waitStopped : Act (Except Err Unit) := call .waitStopped

def lockStream : Act (Except Err Unit) := call .lockStream

def listChains : Act (Except Err (List String)) := call .listChains

def endChain (id : String) : Act (Except Err Unit) := call (.endChain id)

/-- The wait of `ResumeStream` for a new chain. -/
def waitChain : Act (Except Err Unit) := call .waitChain

/-- `ctx.Err() != nil`. -/
def contextDone : Act Bool := call .contextDone

def startBaseBackup : Act (Except Err String) := call .startBaseBackup

/-- `Runs.Go`; the answer says whether the run goes first or the caller. -/
def startRun : Act (Except Err Bool) := call .startRun

def resolveConnection : Act (Except Err Unit) := call .resolveConnection

/-- `alertResume`. -/
def alert (err : Err) : Act Unit := call (.alert err)

end Call

/-- The environment's part in a call: the error of a save of the restore's record and of any other call,
whether a call that failed took effect all the same (and whether a background save was made before the
process stopped), and what the calls that answer more than an error answer. -/
structure Env where
  saveErr : Option Err := none
  err : Option Err := none
  took : Bool := false
  counts : List CollectionCount := []
  id : String := ""
  executed : Executed := { status := some .completed }
  chains : List String := []
  done : Bool := false
  first : Bool := false

/-- No call fails. -/
def quiet : Env := {}

def Env.fails (e : Env) : Option Err → Bool
  | none => false
  | some _ => !e.took

def result {α : Type} (a : α) : Option Err → Except Err α
  | none => .ok a
  | some x => .error x

def Server.write (s : Server) (db : String) : Server := { s with written := s.written ++ [db] }

def Server.replace (s : Server) (db : String) : Server := { s with replaced := s.replaced ++ [db] }

def Server.drop (s : Server) (db : String) : Server :=
  { s with databases := s.databases.filter (· ≠ db) }

def Stream.update (t : Stream) (enabled : Bool) : Stream :=
  { t with enabled := enabled, paused := t.paused || (t.enabled && !enabled) }

def Vault.execute (v : Vault) (b : BackupRecord) (x : Executed) : Vault :=
  if x.status = some .completed ∧ x.err = none then
    { v with archives := v.archives ++ [(b.id, b.database)] }
  else v

def device : Crash.Device calls World Env
  | .save r, w, e => (if e.fails e.saveErr then w else { w with stored := r }, result () e.saveErr)
  | .deferSave r, w, e => (if e.took then { w with stored := r } else w, ())
  | .listRestores, w, e => (w, result w.stored e.err)
  | .collectionCounts _, w, e => (w, result e.counts e.err)
  | .writeConfig, w, e => (w, result () e.err)
  | .cancellation, w, e => (w, result () e.err)
  | .copyDatabase db _, w, e =>
    (if e.fails e.err then w else { w with server := w.server.write db }, result () e.err)
  | .dropCollection _ _, w, e => (w, result () e.err)
  | .printReplaced db, w, _ => ({ w with server := w.server.replace db }, ())
  | .dropDatabase db, w, e =>
    (if e.fails e.err then w else { w with server := w.server.drop db }, result () e.err)
  | .resolveTarget, w, e => (w, result () e.err)
  | .prepareBackup db, w, e => (w, result { id := e.id, database := db } e.err)
  | .saveBackup b, w, e =>
    (if e.fails e.err then w else { w with vault := { w.vault with saved := w.vault.saved ++ [b] } },
      result () e.err)
  | .deferBackup b, w, _ => ({ w with vault := { w.vault with waiting := w.vault.waiting ++ [b] } }, ())
  | .executeBackup b, w, e => ({ w with vault := w.vault.execute b e.executed }, e.executed)
  | .getStream _, w, e => (w, result w.stream.enabled e.err)
  -- one statement: an update that fails changes nothing
  | .updateStream b _, w, e =>
    (if e.err.isSome then w else { w with stream := w.stream.update b }, result () e.err)
  | .waitStopped, w, e => (w, result () e.err)
  | .lockStream, w, e => (w, result () e.err)
  | .listChains, w, e => (w, result e.chains e.err)
  | .endChain _, w, e => (w, result () e.err)
  | .waitChain, w, e => (w, result () e.err)
  | .contextDone, w, e => (w, e.done)
  | .startBaseBackup, w, e => (w, result e.id e.err)
  | .startRun, w, e => (w, result e.first e.err)
  | .resolveConnection, w, e => (w, result () e.err)
  | .alert x, w, _ => ({ w with stream := { w.stream with alerts := w.stream.alerts ++ [x] } }, ())

/-- The calls on the stream that run under the limit of one second. -/
def brief : Op → Bool
  | .getStream .second => true
  | .updateStream _ .second => true
  | _ => false

/-- The store answers a read or an update of the stream within the second it has. -/
def timely (o : Op) (_ : World) (e : Env) : Prop :=
  brief o = true → ∀ x, e.err = some x → x.kind ≠ .deadlineExceeded

/-! ## Helpers of the run -/

structure Config where
  redact : String → String := id
  /-- `PITRStreams` is set. -/
  streams : Bool := true
  /-- The number of `saveRetryDelays`. -/
  retries : Nat := 4

/-- `diskguard.SaveFinal`: one attempt, and one more after each wait that the context outlives. -/
def saveFinal (save : Act (Except Err Unit)) : Nat → Act (Except Err Unit)
  | 0 => save
  | n + 1 => do
    match ← save with
    | .ok () => return .ok ()
    | .error err => if ← Call.contextDone then return .error err else saveFinal save n

/-- `saveInPlace`: a failed save is only logged. -/
def saveInPlace (rec : RestoreRecord) : Act Unit := do
  let _ ← Call.save rec
  return ()

/-- Drops each clone and returns those that could not be dropped. -/
def dropEach : List String → Act (List String)
  | [] => return []
  | c :: cs => do
    let r ← Call.dropDatabase c
    let failed ← dropEach cs
    match r with
    | .ok () => return failed
    | .error _ => return c :: failed

def dropPITRClones (clones : List String) : Act String :=
  match clones with
  | [] => return ""
  | _ => do
    match ← dropEach clones with
    | [] => return "; the clones " ++ ", ".intercalate clones ++ " were dropped"
    | failed =>
      return "; dropping the partially restored clones " ++ ", ".intercalate failed
        ++ " failed, drop them manually"

/-- `ErrCloneUnreadable` with what follows it. -/
def errCloneUnreadable (text : String) : String :=
  "restore: the clone of an in-place point-in-time restore cannot be read completely: " ++ text

/-- The loop of `SnapshotPITRClones`. -/
def snapshotEach (suffix : String) : List String → Act (Except Err (List PITRCloneSnapshot))
  | [] => return .ok []
  | db :: dbs => do
    let clone := db ++ suffix
    match ← Call.collectionCounts clone with
    | .error err => return .error (err.wrap (errCloneUnreadable ("list " ++ clone ++ ": ")))
    | .ok [] =>
      return .error { text := errCloneUnreadable (clone ++ " lists no collection, so replacing " ++ db
        ++ " would empty it; an in-place restore never empties an original database (if " ++ db
        ++ " did not exist at the target time, drop it yourself; if the connection's user may not "
        ++ "list every collection, grant it)") }
    | .ok colls =>
      match ← snapshotEach suffix dbs with
      | .error err => return .error err
      | .ok snaps => return .ok ({ database := db, clone := clone, collections := colls } :: snaps)

def snapshotPITRClones (rec : RestoreRecord) : Act (Except Err RestoreRecord) := do
  match ← snapshotEach rec.pitr.cloneSuffix rec.ip.databases with
  | .error err => return .error err
  | .ok snaps => return .ok (rec.setIP { rec.ip with snapshots := snaps })

/-! ## Safety backups -/

def statusText : Backup.Status → String
  | .pending => "pending"
  | .inProgress => "in_progress"
  | .completed => "completed"
  | .failed => "failed"
  | .pruned => "pruned"
  | .cancelled => "cancelled"
  | .skipped => "skipped"
  | .missing => "missing"
  | .deleted => "deleted"
  | .purged => "purged"

def BackupRecord.failUnsaved (b : BackupRecord) (cause : String) : BackupRecord :=
  { b with
    status := if b.status = .cancelled then .cancelled else .failed
    errorMessage :=
      if b.errorMessage.startsWith "the backup record could not be saved" then b.errorMessage
      else
        "the backup record could not be saved"
          ++ (if cause ≠ "" then " (data disk full: " ++ cause ++ ")" else "")
          ++ (if b.status = .completed then "; the archive was kept" else "")
          ++ (if b.errorMessage ≠ "" then "; the run itself ended with: " ++ b.errorMessage else "") }

variable (cfg : Config) (rec : RestoreRecord)

/-- `DiskGuard.FinishBackup`: the record as it is reported. One that cannot be saved because the disk is
full is reported as failed; after any other failure it is saved in the background as it is. -/
def finishBackup (b : BackupRecord) : Act BackupRecord := do
  match ← saveFinal (Call.saveBackup b) cfg.retries with
  | .ok () => return b
  | .error err =>
    if err.kind = .full then
      let failed := b.failUnsaved (cfg.redact err.text)
      Call.deferBackup failed
      return failed
    else
      Call.deferBackup b
      return b

/-- The record that `Execute` returned, or `record` if it returned none. -/
def Executed.final (x : Executed) (record : BackupRecord) : BackupRecord :=
  match x.status with
  | none => record
  | some st => { record with status := st, errorMessage := x.message }

/-- What `safetyBackup` returns for the record `b` of a run that ended with `runErr`. -/
def safetyOutcome (b : BackupRecord) : Option Err → Option Err
  | some err => some err
  | none =>
    if b.status = .completed then none
    else some { text := "backup " ++ b.id ++ " ended " ++ statusText b.status ++ ": " ++ b.errorMessage }

/-- `safetyBackup`: the ID of the backup (empty when none was recorded) and its error. -/
def safetyBackup (db : String) : Act (String × Option Err) := do
  match ← Call.resolveTarget with
  | .error err => return ("", some (err.wrap "storage target of the stream: "))
  | .ok () =>
    match ← Call.prepareBackup db with
    | .error err => return ("", some err)
    | .ok record =>
      match ← Call.saveBackup record with
      | .error err => return ("", some (err.wrap "save backup record: "))
      | .ok () => do
        let x ← Call.executeBackup record
        let final ← finishBackup cfg (x.final record)
        return (final.id, safetyOutcome final x.err)

/-- The record with the safety backup `id`, stored when there is one. -/
def recordSafety (id : String) : Act RestoreRecord := do
  if id = "" then return rec
  else
    let rec' := rec.setIP { rec.ip with safetyBackupIDs := rec.ip.safetyBackupIDs ++ [id] }
    saveInPlace rec'
    return rec'

/-- The loop over the safety backups; stops at the first database whose backup failed. -/
def safetyBackups (cfg : Config) (rec : RestoreRecord) :
    List String → Act (RestoreRecord × Option (String × Err))
  | [] => return (rec, none)
  | db :: dbs => do
    let (id, err) ← safetyBackup cfg db
    let rec' ← recordSafety rec id
    match err with
    | some x => return (rec', some (db, x))
    | none => safetyBackups cfg rec' dbs

/-! ## The stream -/

/-- The end of `PauseStream`: the open chains end. -/
def endChains : List String → Act (Option Err)
  | [] => return none
  | c :: cs => do
    match ← Call.endChain c with
    | .ok () => endChains cs
    | .error err =>
      if err.kind = .chainEnded then endChains cs else return some (err.wrap "end the chain: ")

/-- `PauseStream` once the stream is disabled. -/
def stopCollector : Act (Option Err) := do
  match ← Call.waitStopped with
  | .error err => return some (err.wrap "wait for the collector to stop: ")
  | .ok () =>
    match ← Call.lockStream with
    | .error err => return some err
    | .ok () =>
      match ← Call.listChains with
      | .error err => return some (err.wrap "list the chains: ")
      | .ok chains => endChains chains

/-- `PauseStream`: whether the stream was enabled, and the error. -/
def pauseStream : Act (Bool × Option Err) := do
  match ← Call.getStream .minutes with
  | .error err => return (false, some err)
  | .ok false => do
    let err ← stopCollector
    return (false, err)
  | .ok true =>
    match ← Call.updateStream false .minutes with
    | .error err => return (false, some (err.wrap "disable the stream: "))
    | .ok () => do
      let err ← stopCollector
      return (true, err)

/-- The wait of `ResumeStream`. -/
def awaitChain : Act (Option Err) := do
  match ← Call.waitChain with
  | .error err => return some (err.wrap "wait for the collector to open a new chain: ")
  | .ok () => return none

def resumeStream (l : Limit) : Act (Option Err) := do
  match ← Call.getStream l with
  | .error err => return some err
  | .ok true => awaitChain
  | .ok false =>
    match ← Call.updateStream true l with
    | .error err => return some (err.wrap "enable the stream: ")
    | .ok () => awaitChain

/-- The base backup of the new chain. -/
def startBase : Act (RestoreRecord × String) := do
  match ← Call.startBaseBackup with
  | .error err =>
    if err.kind = .busy then return (rec, "")
    else return (rec, "; the base backup of the stream's new chain could not be started ("
      ++ cfg.redact err.text ++ "): take one")
  | .ok id => return (rec.setIP { rec.ip with newBaseID := id }, "")

def couldNotEnable (stream : String) (err : Err) : String :=
  "; the PITR stream " ++ stream ++ " could not be enabled again (" ++ cfg.redact err.text
    ++ "): enable it and take a base backup"

def markResumed : RestoreRecord := rec.setIP { rec.ip with streamResumed := true }

/-- `resumeInPlace`: enables the stream again if it was enabled when the restore paused it. -/
def resumeInPlace (withBase : Bool) : Act (RestoreRecord × String) := do
  if !rec.ip.streamWasEnabled then return (rec, "")
  else
    let shutdownNote := "; the PITR stream " ++ rec.pitr.streamID
      ++ " was enabled again during a shutdown: take a base backup of its new chain"
    let shuttingDown ← Call.contextDone
    match ← resumeStream (if shuttingDown then .second else .minutes) with
    | some err =>
      -- the stream was enabled, its new chain opens at the next start
      if shuttingDown && err.kind = .deadlineExceeded then return (markResumed rec, shutdownNote)
      else
        Call.alert err
        return (rec, couldNotEnable cfg rec.pitr.streamID err)
    | none =>
      if shuttingDown then return (markResumed rec, shutdownNote)
      else if withBase then startBase cfg (markResumed rec)
      else return (markResumed rec, "")

/-! ## The swap -/

/-- Drops the collections of the original that the restored state does not have. -/
def dropExtra (snap : PITRCloneSnapshot) : List CollectionCount → Act (Except Err Unit)
  | [] => return .ok ()
  | c :: cs => do
    if snap.collections.any (·.name = c.name) then dropExtra snap cs
    else
      match ← Call.dropCollection snap.database c.name with
      | .error err =>
        return .error (err.wrap ("drop " ++ snap.database ++ "." ++ c.name
          ++ ", which the restored state does not have: "))
      | .ok () => dropExtra snap cs

/-- `swapDatabase` once the copy was made. -/
def settleCopy (snap : PITRCloneSnapshot) : Act (Except Err Unit) := do
  match ← Call.collectionCounts snap.database with
  | .error err =>
    return .error (err.wrap ("list " ++ snap.database ++ " after the copy: ") "; nothing was dropped")
  | .ok colls =>
    let diff := collectionDiff snap.collections colls false
    if diff ≠ "" then
      return .error { text := "the copy into " ++ snap.database ++ " is incomplete (" ++ diff
        ++ "); nothing was dropped" }
    else dropExtra snap colls

def swapDatabase (snap : PITRCloneSnapshot) : Act (Except Err Unit) := do
  let untouched := "; " ++ snap.database ++ " is untouched"
  match ← Call.collectionCounts snap.clone with
  | .error err => return .error (err.wrap (errCloneUnreadable ("list " ++ snap.clone ++ ": ")) untouched)
  | .ok colls =>
    let diff := collectionDiff snap.collections colls true
    if diff ≠ "" ∨ colls = [] then
      return .error { text := errCloneUnreadable (snap.clone
        ++ " does not list what it held after the restore (" ++ diff ++ ")" ++ untouched) }
    else
      match ← Call.copyDatabase snap.database snap.clone with
      | .error err => return .error err
      | .ok () => settleCopy snap

/-- `ErrSwapFailed` with what follows it. -/
def errSwapFailed (text : String) : String :=
  "restore: replacing the original database with its clone failed: " ++ text

/-- The callback of the swap: the database is recorded and the record stored. -/
def recordSwapped (db : String) : Act RestoreRecord := do
  let rec' := rec.setIP { rec.ip with swapped := rec.ip.swapped ++ [db] }
  saveInPlace rec'
  return rec'

/-- The loop of `SwapPITRClones`. -/
def swapEach (rec : RestoreRecord) : List String → Act (RestoreRecord × Option Err)
  | [] => return (rec, none)
  | db :: dbs => do
    let clone := db ++ rec.pitr.cloneSuffix
    match ← Call.cancellation with
    | .error c => return (rec, some (c.wrap (errSwapFailed (db ++ ": "))))
    | .ok () =>
      match snapshotOf rec.ip db with
      | none =>
        return (rec, some { text := errSwapFailed (db ++ ": " ++ errCloneUnreadable ("no record of what "
          ++ clone ++ " held after the restore; " ++ db ++ " is untouched")) })
      | some snap =>
        match ← swapDatabase snap with
        | .error err => return (rec, some (err.wrap (errSwapFailed (db ++ ": "))))
        | .ok () => do
          Call.printReplaced db
          let rec' ← recordSwapped rec db
          swapEach rec' dbs

def swapPITRClones : Act (RestoreRecord × Option Err) := do
  match ← Call.writeConfig with
  | .error err => return (rec, some (err.wrap (errSwapFailed "prepare the tools config: ")))
  | .ok () => swapEach rec rec.ip.databases

/-! ## The run -/

def failInPlace (message : String) : RestoreRecord :=
  { rec.setIP { rec.ip with stage := .done } with
    status := .failed, errorMessage := cfg.redact message }

/-- `finishPITRInPlace` from the resumed stream on, after a swap that replaced every original. -/
def finishSwapped : Act (RestoreRecord × Option Err) := do
  let (rec', note) ← resumeInPlace cfg rec true
  let warned := if note ≠ "" then addInPlaceWarning rec' (note.dropPrefix "; ").toString else rec'
  return ({ warned.setIP { warned.ip with stage := .done } with
    targetDatabase := ",".intercalate warned.ip.swapped, status := .completed }, none)

/-- Steps 4 and 5: the clones and the stream. -/
def finishClones : Act (RestoreRecord × Option Err) := do
  if rec.ip.keepClone then
    finishSwapped cfg (addInPlaceWarning rec ("the clones " ++ ", ".intercalate rec.pitr.clones
      ++ " were kept (keep_clone); drop them when done"))
  else
    let note ← dropPITRClones rec.pitr.clones
    if note.contains "manually" then finishSwapped cfg (addInPlaceWarning rec (note.dropPrefix "; ").toString)
    else finishSwapped cfg rec

/-- Step 3: the swap. -/
def swapInPlace : Act (RestoreRecord × Option Err) := do
  let rec₁ := rec.setIP { rec.ip with stage := .swapping, swapStarted := true }
  saveInPlace rec₁
  let (rec₂, err) ← swapPITRClones rec₁
  let rec₃ := rec₂.setIP { rec₂.ip with stage := .resuming }
  match err with
  | some x => do
    let (rec₄, note) ← resumeInPlace cfg rec₃ true
    return (failInPlace cfg rec₄ (swapFailedMessage rec₄ (cfg.redact x.text) ++ note), some x)
  | none => finishClones cfg rec₃

/-- Whether the stream is enabled: as it is read now, or as the plan read it (`planned`). -/
def streamState (planned : Bool) : Except Err Bool → Bool
  | .ok enabled => enabled
  | .error _ => planned

/-- Step 2: whether the stream is enabled is stored, then it is paused. -/
def pauseInPlace (planned : Bool) : Act (RestoreRecord × Option Err) := do
  let st ← Call.getStream .minutes
  let rec₁ := rec.setIP { rec.ip with stage := .pausing, streamWasEnabled := streamState planned st }
  saveInPlace rec₁
  let (was, err) ← pauseStream
  let rec₂ := rec₁.setIP { rec₁.ip with streamWasEnabled := rec₁.ip.streamWasEnabled || was }
  match err with
  | some x => do
    let (rec₃, note) ← resumeInPlace cfg rec₂ false
    let dropped ← dropPITRClones rec₃.pitr.clones
    return (failInPlace cfg rec₃ ("the PITR stream could not be paused: " ++ cfg.redact x.text
      ++ "; the original databases are untouched, the safety backup(s) "
      ++ ", ".intercalate rec₃.ip.safetyBackupIDs ++ " are kept" ++ dropped ++ note), some x)
  | none => do
    let rec₃ := rec₂.setIP { rec₂.ip with streamPaused := true }
    saveInPlace rec₃
    swapInPlace cfg rec₃

/-- Step 1: the safety backups. -/
def backUpInPlace (planned : Bool) : Act (RestoreRecord × Option Err) := do
  let rec₁ := rec.setIP { rec.ip with stage := .safetyBackup }
  saveInPlace rec₁
  let (rec₂, failed) ← safetyBackups cfg rec₁ rec₁.ip.databases
  match failed with
  | some (db, x) => do
    let dropped ← dropPITRClones rec₂.pitr.clones
    return (failInPlace cfg rec₂ ("the safety backup of " ++ db ++ " failed: " ++ cfg.redact x.text
      ++ "; the original databases are untouched" ++ dropped), some x)
  | none => pauseInPlace cfg rec₂ planned

/-- The record of a restore into the clones that did not complete. -/
def leaveUntouched : RestoreRecord :=
  { rec.setIP { rec.ip with stage := .done } with
    errorMessage :=
      if rec.status = .failed ∧ rec.errorMessage ≠ "" then
        rec.errorMessage ++ "; the original databases are untouched"
      else rec.errorMessage }

/-- `finishPITRInPlace`, after the restore into the clones ended with `rec` and `runErr`. -/
def finishPITRInPlace (runErr : Option Err) (planned : Bool) :
    Act (RestoreRecord × Option Err) := do
  if runErr.isSome ∨ rec.status ≠ .completed then return (leaveUntouched rec, runErr)
  else
    match ← snapshotPITRClones { rec with status := .inProgress } with
    | .error err => do
      let dropped ← dropPITRClones rec.pitr.clones
      return (failInPlace cfg { rec with status := .inProgress }
        (cfg.redact err.text ++ "; the original databases are untouched" ++ dropped), some err)
    | .ok rec' => do
      saveInPlace rec'
      backUpInPlace cfg rec' planned

/-! ## Recovery -/

/-- The run that `resumeInterrupted` starts. -/
def resumeLater : Act Unit := do
  match ← resumeStream .minutes with
  | some err => Call.alert err
  | none => do
    let _ ← Call.startBaseBackup
    return ()

/-- The error of a resume that did not merely run out of time. -/
def hardError : Option Err → Option Err
  | some x => if x.kind = .deadlineExceeded then none else some x
  | none => none

/-- `resumeInterrupted`: a note, and whether the run it started is still to go. -/
def resumeInterrupted : Act (String × Bool) := do
  let stream := rec.pitr.streamID
  if !cfg.streams then
    Call.alert { text := "PITR streams cannot be controlled in this setup" }
    return ("; the PITR stream " ++ stream
      ++ " was paused by this restore: enable it and take a base backup", false)
  else
    let err ← resumeStream .second
    match hardError err with
    | some x => do
      Call.alert x
      return (couldNotEnable cfg stream x, false)
    | none =>
      match ← Call.startRun with
      | .error _ =>
        return ("; the PITR stream " ++ stream
          ++ " was enabled again: take a base backup of its new chain", false)
      | .ok first => do
        let note := "; the PITR stream " ++ stream
          ++ " was enabled again, and a base backup of its new chain is started once its collector runs"
        if first then
          resumeLater
          return (note, false)
        else return (note, true)

/-- Drops the clones of `rec`, unless its connection cannot be resolved; `what` says what they are. -/
def dropInterrupted (what : String) : Act String := do
  match ← Call.resolveConnection with
  | .ok () => dropPITRClones rec.pitr.clones
  | .error err =>
    return if rec.pitr.clones = [] then ""
      else "; the " ++ what ++ " " ++ ", ".intercalate rec.pitr.clones ++ " could not be dropped ("
        ++ cfg.redact err.text ++ "), drop them manually"

/-- What `cleanupInterruptedInPlace` does about the clones. -/
def settleClones : Act String := do
  let ip := rec.ip
  if ip.swapStarted then
    if ip.swapped.length = ip.databases.length ∧ ip.stage = .done then
      return "; the original databases hold the restored state"
    else return "; " ++ swapFailedMessage rec (cfg.redact "MongoRescue stopped during the swap")
  else
    let note ← dropInterrupted cfg rec "clones"
    return "; the original databases are untouched"
      ++ (if ip.safetyBackupIDs ≠ [] then
          ", the safety backup(s) " ++ ", ".intercalate ip.safetyBackupIDs ++ " are kept" else "")
      ++ note

def cleanupInterruptedInPlace : Act (String × Bool) := do
  let note ← settleClones cfg rec
  let ip := rec.ip
  if ip.stage ≠ .restoring ∧ ip.streamWasEnabled ∧ !ip.streamResumed then
    let (resumed, later) ← resumeInterrupted cfg rec
    return (note ++ resumed, later)
  else return (note, false)

def cleanupInterruptedPITR : Act (String × Bool) := do
  if rec.ip.stage ≠ .restoring then cleanupInterruptedInPlace cfg rec
  else if rec.pitr.clones = [] then return ("", false)
  else
    let note ← dropInterrupted cfg rec "partially restored clones"
    return (note, false)

/-- The started run, if it did not go first. -/
def runLater (later : Bool) : Act Unit :=
  if later then resumeLater else return ()

/-- `failInterruptedRuns`, the part about the restore's record: whether it was read. -/
def failInterruptedRestore : Act Bool := do
  match ← Call.listRestores with
  | .error _ => return false
  | .ok rec =>
    if rec.status ≠ .inProgress then return true
    else
      let (note, later) ← cleanupInterruptedPITR cfg rec
      let _ ← Call.save { rec with
        status := .failed
        errorMessage := "interrupted: the server stopped before this run finished" ++ note }
      runLater later
      return true

/-! ## The final save -/

/-- `failUnsavedRestore`: the final record could not be saved because the disk is full. -/
def failUnsavedRestore (saveErr : Err) : Act Unit := do
  if rec.status = .completed then
    let (note, later) ← cleanupInterruptedPITR cfg rec
    Call.deferSave (rec.failUnsaved (cfg.redact saveErr.text) note)
    runLater later
  else Call.deferSave (rec.failUnsaved (cfg.redact saveErr.text) "")

/-- `finishRestore`: any other failure to save the final record is retried in the background. -/
def finishRestore (final : RestoreRecord) : Act Unit := do
  match ← saveFinal (Call.save final) cfg.retries with
  | .ok () => return ()
  | .error err =>
    if err.kind = .full then failUnsavedRestore cfg final err
    else Call.deferSave final

/-- The end of the run of an in-place restore, from the end of the restore into its clones on. -/
def restoreInPlace (runErr : Option Err) (planned : Bool) : Act Unit := do
  let (final, _) ← finishPITRInPlace cfg rec runErr planned
  finishRestore cfg final

end MongoRescue.InPlace
