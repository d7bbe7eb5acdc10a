import MongoRescue.Backup.Record
import Mathlib.Data.List.Sort
import Mathlib.Data.List.Dedup
import Mathlib.Data.String.Basic

/-!
# Retention of a job's backups

`internal/scheduler/retention.go`: which of a job's backups a policy of days and counts deletes.
`time.Time` is nanoseconds since the Unix epoch, and `now` is in UTC.
-/

namespace MongoRescue.Scheduler

open Backup (Record)

/-- The youngest a backup can be for the count rule to delete it. -/
def minCountPruneAge : Int := 24 * 3600 * Go.second

inductive RetentionReason
  | maxAge
  | maxCount
  deriving DecidableEq

inductive ProtectedReason
  | pinned
  | lastVerified
  deriving DecidableEq

structure RetentionDecision where
  backup : Record
  reason : RetentionReason
  detail : String
  deriving DecidableEq

structure ProtectedBackup where
  backupID : String
  reason : ProtectedReason
  deriving DecidableEq

structure DatabaseRetention where
  database : String
  considered : Nat
  delete : Nat
  protect : Nat
  kept : Nat
  lastGood : String
  deriving DecidableEq

structure RetentionPlan where
  delete : List RetentionDecision := []
  protect : List ProtectedBackup := []
  considered : Nat := 0
  databases : List DatabaseRetention := []
  deriving DecidableEq

/-- The backups a policy applies to. -/
def considers (r : Record) : Bool :=
  r.status = .completed && r.effectiveTrigger = .scheduled && !r.instanceScope

section
variable (now retentionDays retentionCount : Int)

/-- The rule that selects a backup beyond the floor. -/
def select (r : Record) : Option RetentionDecision :=
  if 0 < retentionDays ∧ r.startedAt < Go.addDays now (-retentionDays) then
    some { backup := r, reason := .maxAge, detail := "older than " ++ toString retentionDays ++ " days" }
  else if 0 < retentionCount ∧ minCountPruneAge ≤ Go.timeSub now r.startedAt then
    some { backup := r, reason := .maxCount
           detail := "beyond the " ++ toString retentionCount ++ " newest backups" }
  else none

/-- Why a selected backup is kept anyway. -/
def protection (lastVerified : String) (r : Record) : Option ProtectedReason :=
  if r.pinned then some .pinned
  else if r.id = lastVerified then some .lastVerified
  else none

/-- Newest first; equal start times stay in the order of the list. -/
def newestFirst (records : List Record) : List Record :=
  records.insertionSort fun a b => b.startedAt ≤ a.startedAt

/-- The newest backup whose archive passed verification; empty for none. -/
def lastVerified (successful : List Record) : String :=
  ((successful.find? (·.verification = .ok)).map (·.id)).getD ""

/-- The backups beyond the floor, newest first. -/
def beyondFloor (successful : List Record) : List Record :=
  (newestFirst successful).drop (max retentionCount 1).toNat

/-- What the loop of `planDatabase` deletes. -/
def deletes (verified : String) (r : Record) : Option RetentionDecision :=
  match protection verified r with
  | some _ => none
  | none => select now retentionDays retentionCount r

/-- What the loop of `planDatabase` keeps although a rule selects it. -/
def protects (verified : String) (r : Record) : Option ProtectedBackup :=
  match select now retentionDays retentionCount r with
  | none => none
  | some _ => (protection verified r).map fun why => { backupID := r.id, reason := why }

/-- `planDatabase`: the completed scheduled backups of one database. -/
def planDatabase (successful : List Record) : List RetentionDecision × List ProtectedBackup :=
  let verified := lastVerified (newestFirst successful)
  let rest := beyondFloor retentionCount successful
  ((rest.filterMap (deletes now retentionDays retentionCount verified)).reverse,
    rest.filterMap (protects now retentionDays retentionCount verified))

/-- The considered backups of a database, in the order of the list. -/
def ofDatabase (records : List Record) (name : String) : List Record :=
  records.filter fun r => considers r && r.database = name

/-- The names of the databases with a considered backup, sorted. -/
def databaseNames (records : List Record) : List String :=
  ((records.filter considers).map (·.database)).dedup.insertionSort (· ≤ ·)

/-- The part of the plan about one database. -/
def databaseRetention (records : List Record) (name : String) : DatabaseRetention :=
  let successful := ofDatabase records name
  let (del, protect) := planDatabase now retentionDays retentionCount successful
  { database := name, considered := successful.length, delete := del.length, protect := protect.length
    kept := successful.length - del.length
    lastGood := (((newestFirst successful).head?).map (·.id)).getD "" }

def planRetention (records : List Record) : RetentionPlan :=
  if retentionDays ≤ 0 ∧ retentionCount ≤ 0 then {}
  else
    let names := databaseNames records
    let plans := names.map fun name =>
      planDatabase now retentionDays retentionCount (ofDatabase records name)
    { delete := (plans.flatMap (·.1)).insertionSort fun a b => a.backup.startedAt ≤ b.backup.startedAt
      protect := plans.flatMap (·.2)
      considered := (names.map fun name => (ofDatabase records name).length).sum
      databases := names.map (databaseRetention now retentionDays retentionCount records) }

end

end MongoRescue.Scheduler
