import MongoRescue.AuditLog.Event
import MongoRescue.Lib.Trans

/-!
# The stored audit log

The rows of `audit_events` in the order of their IDs, and the chain anchor; the transactions that
write them (`append`, `prune`), the batches they are read in (`after`, `batch`), and `Verify`, whose
reads are separate transactions (`Walk.start`, `Walk.step`), on a log that nobody writes in between
(`verify`) and beside writers (`beside`).
-/

namespace MongoRescue.AuditLog

open Go (Bytes utf8)
open Go.Json (StringMap)

/-! ## Rows -/

/-- A row of `audit_events`. -/
structure Row where
  id : Int
  /-- `at`, in nanoseconds. -/
  atNanos : Int
  actorKind : Bytes
  actorUserID : Bytes
  actorName : Bytes
  actorKeyID : Bytes
  actorKeyName : Bytes
  action : Bytes
  /-- The targets as JSON. -/
  targets : Bytes
  status : Int
  outcome : Bytes
  clientIP : Bytes
  userAgent : Bytes
  count : Int
  hash : Bytes
  deriving DecidableEq

/-- `timeKey`: nanoseconds since the epoch, clamped to what an `int64` holds. -/
def timeKey (t : Int) : Int :=
  if t < Go.minInt64 then Go.minInt64 else if Go.maxInt64 < t then Go.maxInt64 else t

/-- The row that an entry is stored as. -/
def rowOf (e : Event) : Row where
  id := e.id
  atNanos := timeKey e.time
  actorKind := e.actorKind
  actorUserID := e.actorUserID
  actorName := e.actorName
  actorKeyID := e.actorKeyID
  actorKeyName := e.actorKeyName
  action := e.action
  targets := utf8 (e.targets.text true)
  status := e.status
  outcome := e.outcome
  clientIP := e.clientIP
  userAgent := e.userAgent
  count := e.count
  hash := e.hash

/-- The entry that `ListAuditEvents` reads from a row. -/
def readRow (r : Row) : Event where
  id := r.id
  time := r.atNanos
  actorKind := r.actorKind
  actorUserID := r.actorUserID
  actorName := r.actorName
  actorKeyID := r.actorKeyID
  actorKeyName := r.actorKeyName
  action := r.action
  targets := (StringMap.unmarshal r.targets).getD (StringMap.empty.set (ascii "_invalid") r.targets)
  status := r.status
  outcome := r.outcome
  clientIP := r.clientIP
  userAgent := r.userAgent
  count := r.count
  hash := r.hash

/-! ## Transactions -/

structure Anchor where
  lastID : Int := 0
  lastHash : Bytes := genesisHash
  lastAt : Int := 0
  prunedAt : Int := 0
  deriving DecidableEq

structure Log where
  rows : List Row
  anchor : Anchor
  /-- `id` is the primary key; the rows stand in its order. -/
  ordered : rows.Pairwise fun r s => r.id < s.id

namespace Log

/-- A new database. -/
def initial : Log := ⟨[], {}, List.Pairwise.nil⟩

def newest (rows : List Row) (anchor : Anchor) : Int × Bytes :=
  match rows.getLast? with
  | some r => (r.id, r.hash)
  | none => (anchor.lastID, anchor.lastHash)

/-- The entry that is chained to the one with the ID and hash `prev`. -/
def chainTo (sha256 : Bytes → Bytes) (prev : Int × Bytes) (e : Event) : Event :=
  let next := { e with id := prev.1 + 1 }
  { next with hash := chainHash sha256 prev.2 next }

theorem append_ordered {rows : List Row} (anchor : Anchor)
    (h : rows.Pairwise fun r s => r.id < s.id) (r : Row) (hr : r.id = (newest rows anchor).1 + 1) :
    (rows ++ [r]).Pairwise fun r s => r.id < s.id := by
  refine List.pairwise_append.mpr ⟨h, List.pairwise_singleton _ _, fun x hx y hy => ?_⟩
  obtain rfl := List.mem_singleton.mp hy
  rw [hr]
  rcases List.eq_nil_or_concat rows with rfl | ⟨init, last, rfl⟩
  · cases hx
  · simp only [List.concat_eq_append] at h hx ⊢
    have hlast : (newest (init ++ [last]) anchor).1 = last.id := by simp [newest]
    rw [hlast]
    rcases List.mem_append.mp hx with hx | hx
    · have := (List.pairwise_append.mp h).2.2 x hx last (by simp)
      omega
    · rw [List.mem_singleton.mp hx]
      omega

/-- `AppendAuditEvent`. -/
def append (sha256 : Bytes → Bytes) (log : Log) (e : Event) : Log where
  rows := log.rows ++ [rowOf (chainTo sha256 (newest log.rows log.anchor) e)]
  anchor := log.anchor
  ordered := append_ordered log.anchor log.ordered _ rfl

/-- The newest row recorded before the cutoff. -/
def expired (log : Log) (cutoff : Int) : Option Row :=
  (log.rows.filter fun r => r.atNanos < timeKey cutoff).getLast?

/-- `PruneAuditEvents`, at `now`. -/
def prune (log : Log) (cutoff now : Int) : Log :=
  match log.expired cutoff with
  | none => log
  | some last =>
    { rows := log.rows.filter fun r => last.id < r.id
      anchor := ⟨last.id, last.hash, last.atNanos, timeKey now⟩
      ordered := log.ordered.filter _ }

end Log

/-- A transaction that writes the log. -/
inductive Tx
  /-- `Record` of an entry, which is normalised and appended. -/
  | append (e : Event)
  | prune (cutoff now : Int)

def Log.exec (sha256 : Bytes → Bytes) (log : Log) : Tx → Log
  | .append e => log.append sha256 (normalize e)
  | .prune cutoff now => log.prune cutoff now

/-- The log after these transactions on a new database. -/
def Log.history (sha256 : Bytes → Bytes) (txs : List Tx) : Log :=
  txs.foldl (Log.exec sha256) Log.initial

/-! ## Verifying -/

def walkBatch : Nat := 500

/-- The rows that `ListAuditEvents` selects with `AfterID`, which 0 leaves out. -/
def Log.after (log : Log) (afterID : Int) : List Row :=
  log.rows.filter fun r => decide (afterID ≤ 0) || decide (afterID < r.id)

/-- One batch of entries. -/
def Log.batch (log : Log) (afterID : Int) : List Event :=
  ((log.after afterID).take walkBatch).map readRow

/-- Why an entry does not verify. -/
inductive Reason
  /-- entry `id` follows entry `prevID`: those between them are missing. -/
  | missing (id prevID : Int)
  /-- the hash does not match the entry's content and its predecessor's hash. -/
  | hash
  deriving DecidableEq

def check (sha256 : Bytes → Bytes) (prevID : Int) (prevHash : Bytes) (e : Event) : Option Reason :=
  if e.id ≠ prevID + 1 then some (.missing e.id prevID)
  else if chainHash sha256 prevHash e ≠ e.hash then some .hash
  else none

structure Verification where
  ok : Bool := false
  checked : Int := 0
  anchor : Anchor
  headID : Int
  headHash : Bytes
  /-- The first entry that does not verify, and why. -/
  broken : Option (Int × Reason) := none
  /-- The anchor moved further than the retention explains. -/
  warning : Bool
  retentionDays : Int
  verifiedAt : Int

/-- A `Verify` that has read the anchor, and `AfterID` of its next batch. -/
structure Walk where
  v : Verification
  afterID : Int

namespace Walk

/-- `Verify` up to its first batch: the anchor is read, and checked against the retention with a day
of tolerance. -/
def start (log : Log) (now days : Int) : Walk where
  v := { anchor := log.anchor
         headID := log.anchor.lastID
         headHash := log.anchor.lastHash
         warning := decide (0 < log.anchor.lastID) &&
           decide (Go.addDays now (-days) + 24 * 3600 * Go.second < log.anchor.lastAt)
         retentionDays := days
         verifiedAt := now }
  afterID := log.anchor.lastID

/-- The loop over a batch; it ends at the first entry that does not verify. -/
def checkAll (sha256 : Bytes → Bytes) (v : Verification) : List Event → Verification
  | [] => v
  | e :: es =>
    match check sha256 v.headID v.headHash e with
    | some reason => { v with broken := some (e.id, reason) }
    | none =>
      checkAll sha256 { v with checked := v.checked + 1, headID := e.id, headHash := e.hash } es

/-- One batch: the walk goes on with the next one, or has its result. -/
def step (sha256 : Bytes → Bytes) (log : Log) (w : Walk) : Walk ⊕ Verification :=
  let list := log.batch w.afterID
  let v := checkAll sha256 w.v list
  if v.broken.isSome then .inr v
  else if list.length < walkBatch then .inr { v with ok := true }
  else .inl ⟨v, ((list.getLast?).map Event.id).getD w.afterID⟩

/-- The batches of a log that nobody writes; none when the fuel runs out. -/
def loop (sha256 : Bytes → Bytes) (log : Log) : Nat → Walk → Option Verification
  | 0, _ => none
  | fuel + 1, w =>
    match step sha256 log w with
    | .inr v => some v
    | .inl w => loop sha256 log fuel w

end Walk

/-- `Verify` of a log that nobody writes meanwhile. -/
def verify (sha256 : Bytes → Bytes) (log : Log) (now days : Int) : Option Verification :=
  Walk.loop sha256 log (log.rows.length + 1) (Walk.start log now days)

/-! ## `Verify` beside writers -/

inductive Phase
  | idle
  | walking (w : Walk)
  | done (v : Verification)

/-- The log, and one `Verify`. -/
structure Beside where
  log : Log
  phase : Phase

inductive BesideEvent
  | write (tx : Tx)
  /-- `Verify` is called and reads the anchor. -/
  | start (now days : Int)
  /-- `Verify` reads and checks its next batch. -/
  | read

def Beside.step (sha256 : Bytes → Bytes) (s : Beside) : BesideEvent → Option Beside
  | .write tx => some { s with log := s.log.exec sha256 tx }
  | .start now days =>
    match s.phase with
    | .idle => some { s with phase := .walking (Walk.start s.log now days) }
    | .walking _ | .done _ => none
  | .read =>
    match s.phase with
    | .walking w =>
      match Walk.step sha256 s.log w with
      | .inl w => some { s with phase := .walking w }
      | .inr v => some { s with phase := .done v }
    | .idle | .done _ => none

def beside (sha256 : Bytes → Bytes) : Trans.Sys Beside BesideEvent where
  init := fun s => s = ⟨Log.initial, .idle⟩
  step := Beside.step sha256

end MongoRescue.AuditLog
