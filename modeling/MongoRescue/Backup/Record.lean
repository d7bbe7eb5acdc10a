import MongoRescue.PITR.Types

/-!
# Backup records

`internal/models/backup.go` and `copy.go`: a backup, the object that holds its archive, its copies on
other targets, and the changes a deletion makes. Times are nanoseconds since the epoch. Only the fields
that deletion, retention and restores read are kept.
-/

namespace MongoRescue.Backup

open PITR (OpTime)

inductive Status
  | pending
  | inProgress
  | completed
  | failed
  | pruned
  | cancelled
  | skipped
  | missing
  | deleted
  | purged
  deriving DecidableEq

/-- `Deleted`: waiting for its purge, or purged. -/
def Status.isDeleted : Status → Bool
  | .deleted => true
  | .purged => true
  | _ => false

/-- What a backup covers. -/
inductive Scope
  | database
  | wholeInstance
  deriving DecidableEq

/-- How a backup was started. -/
inductive Trigger
  | scheduled
  | onDemand
  | manual
  | mcp
  deriving DecidableEq

/-- The outcome of the last check of a stored archive. -/
inductive Verification
  | unverified
  | ok
  | mismatch
  | error
  deriving DecidableEq

/-! ## Copies -/

inductive CopyStatus
  | pending
  | done
  | failed
  | purged
  deriving DecidableEq

/-- A copy of the archive on another storage target. -/
structure Copy where
  status : CopyStatus := .pending
  /-- The checksum the copy was made with. -/
  sha256 : String := ""
  verification : Verification := .unverified
  deriving DecidableEq

/-- `Healthy`: a restore may read the copy. -/
def Copy.healthy (c : Copy) : Bool := c.status = .done && c.verification ≠ .mismatch

/-! ## Records -/

structure Record where
  id : String
  jobID : String := ""
  connectionID : String := ""
  database : String := ""
  status : Status := .completed
  storageKey : String := ""
  trigger : Option Trigger := none
  verification : Verification := .unverified
  sizeBytes : Int64 := 0
  sha256 : String := ""
  encrypted : Bool := false
  encryptionMode : String := ""
  startedAt : Int := 0
  pinned : Bool := false
  /-- The recorded end of the archive's Object Lock. -/
  retainUntil : Option Int := none
  deletedAt : Option Int := none
  purgeAfter : Option Int := none
  statusBeforeDelete : Option Status := none
  purgedAt : Option Int := none
  scope : Scope := .database
  /-- The last write before and after the dump of a base backup. -/
  tBefore : Option OpTime := none
  tAfter : Option OpTime := none
  copies : List Copy := []
  deriving DecidableEq

namespace Record

/-- `EffectiveTrigger`: older records do not say. -/
def effectiveTrigger (r : Record) : Trigger :=
  match r.trigger with
  | some t => t
  | none => if r.jobID ≠ "" then .scheduled else .manual

def instanceScope (r : Record) : Bool := r.scope = .wholeInstance

def markDeleted (r : Record) (now purgeAfter : Int) : Record :=
  { r with
    statusBeforeDelete := some r.status
    status := .deleted
    deletedAt := some now
    purgeAfter := some purgeAfter
    purgedAt := none }

/-- `CopyUsable`: the copy can be read in place of the archive. -/
def copyUsable (r : Record) (c : Copy) : Bool :=
  c.healthy && r.sha256 ≠ "" && c.sha256.toLower = r.sha256.toLower

end Record

end MongoRescue.Backup
