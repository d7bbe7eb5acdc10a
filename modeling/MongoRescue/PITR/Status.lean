import MongoRescue.PITR.Retention

/-!
# Status: the windows a stream offers

The part of `Status` in `internal/pitr/collector/status.go` that says what can be restored: the usable
segments of every chain, the segment that covers each base, and a window for every segment with an
eligible base. The collector's live position, lag and headroom are left out. `pitrBases`
(`internal/operations/pitrrestore.go`) are the bases a restore is planned from.
-/

namespace MongoRescue.PITR

/-- A window of one chain: every moment from its start to its end can be restored. -/
structure Window where
  chainID : String
  isOpen : Bool := false
  start : Timestamp := {}
  stop : Timestamp
  startTime : Int := Go.zeroTime
  endTime : Int := Go.zeroTime
  /-- The number of eligible bases. -/
  bases : Nat := 0
  deriving DecidableEq

structure ChainStatus where
  chain : Chain
  segments : List Segment
  /-- The live chunks that failed verification. -/
  corrupt : Nat
  /-- The end of the newest live chunk. -/
  lastTo : Timestamp := {}
  deriving DecidableEq

structure BaseStatus where
  id : String
  status : Backup.Status
  startedAt : Int
  sizeBytes : Int64
  tBefore : Option OpTime
  tAfter : Option OpTime
  pinned : Bool
  /-- The chain whose chunks cover the base, and whether it can start a restore. -/
  chainID : String := ""
  eligible : Bool := false
  /-- The end of the segment that covers the base. -/
  segmentTo : Timestamp := {}
  deriving DecidableEq

structure StreamStatus where
  windows : List Window
  chains : List ChainStatus
  bases : List BaseStatus
  chainBreaks : Nat
  deriving DecidableEq

/-! ## Chains and bases -/

/-- The second result of `segments`. -/
def corruptChunks (chunks : List Chunk) : Nat := chunks.countP fun c => c.live && c.verifyError ≠ ""

def chainStatus (c : Chain) (chunks : List Chunk) : ChainStatus where
  chain := c
  segments := segments chunks
  corrupt := corruptChunks chunks
  lastTo := (chunks.getLast?.map (·.toTS)).getD {}

def coveringSegment (segs : List Segment) (b : Backup.Record) : Option Segment :=
  segs.find? (·.covers b)

/-- The first chain with a segment that covers the base, and that segment. -/
def coveringChain (b : Backup.Record) : List ChainStatus → Option (ChainStatus × Segment)
  | [] => none
  | c :: rest =>
    match coveringSegment c.segments b with
    | some seg => some (c, seg)
    | none => coveringChain b rest

def baseStatus (chains : List ChainStatus) (b : Backup.Record) : BaseStatus :=
  let bs : BaseStatus :=
    { id := b.id, status := b.status, startedAt := b.startedAt, sizeBytes := b.sizeBytes
      tBefore := b.tBefore, tAfter := b.tAfter, pinned := b.pinned }
  match coveringChain b chains with
  | none => bs
  | some (c, seg) =>
    { bs with chainID := c.chain.chainID, eligible := eligibleBase b, segmentTo := seg.toTS }

/-! ## Windows -/

/-- The base counts for the window of the segment. -/
def BaseStatus.opens (b : BaseStatus) (c : ChainStatus) (seg : Segment) : Bool :=
  b.chainID = c.chain.chainID && b.eligible && b.segmentTo = seg.toTS

/-- The window with one more base. -/
def Window.add (w : Window) (b : BaseStatus) : Window :=
  let after := (b.tAfter.map (·.ts)).getD {}
  { w with
    start := if w.bases = 0 ∨ after < w.start then after else w.start
    bases := w.bases + 1 }

/-- The window of a segment, without one when no base counts. -/
def segmentWindow (bases : List BaseStatus) (c : ChainStatus) (seg : Segment) : Option Window :=
  let w : Window :=
    { chainID := c.chain.chainID, isOpen := c.chain.isOpen && seg.toTS = c.lastTo, stop := seg.toTS }
  let w := (bases.filter (·.opens c seg)).foldl Window.add w
  if w.bases = 0 then none
  else some { w with startTime := w.start.time, endTime := w.stop.time }

def windows (chains : List ChainStatus) (bases : List BaseStatus) : List Window :=
  chains.flatMap fun c => c.segments.filterMap (segmentWindow bases c)

/-! ## Status -/

def Chain.broken (c : Chain) : Bool :=
  c.endReason = some .gap || c.endReason = some .diverged || c.endReason = some .replicaSetChanged

/-- The status of every chain, from its live chunks. -/
def chainStatuses (repo : Repository) (streamID : String) : List Chain → Option (List ChainStatus)
  | [] => some []
  | c :: rest => do
    let chunks ← repo.listChunks
      { streamID, chainID := c.chainID, status := some .committed, live := true }
    return chainStatus c chunks :: (← chainStatuses repo streamID rest)

/-- `Status`, from the base backups of the stream; `none` when a read fails. -/
def status (repo : Repository) (streamID : String) (bases : List Backup.Record) :
    Option StreamStatus := do
  let chains ← repo.listChains streamID
  let statuses ← chainStatuses repo streamID chains
  let bases := (bases.filter fun b => !b.status.isDeleted).map (baseStatus statuses)
  return { windows := windows statuses bases, chains := statuses, bases
           chainBreaks := chains.countP (·.broken) }

/-! ## The bases of a plan -/

def hasUsableCopy (r : Backup.Record) : Bool := r.copies.any r.copyUsable

/-- Completed, or missing on its target with a usable copy. -/
def usableBase (r : Backup.Record) : Bool :=
  (r.status = .completed || (r.status = .missing && hasUsableCopy r)) && r.instanceScope

def pitrBases (records : List Backup.Record) : List Base := (records.filter usableBase).filterMap baseOf

end MongoRescue.PITR
