import MongoRescue.Backup.Record
import MongoRescue.PITR.Plan

/-!
# Retention

`internal/pitr/collector/segments.go` and `retention.go`: which chunks of a chain can be used, which
chain covers a base backup, and what the retention of a stream deletes.
-/

namespace MongoRescue.PITR

/-! ## Segments -/

/-- A run of usable chunks, each starting where the one before ends. -/
structure Segment where
  fromTS : Timestamp
  toTS : Timestamp
  chunks : List Chunk
  deriving DecidableEq

def Segment.single (c : Chunk) : Segment := ⟨c.fromTS, c.toTS, [c]⟩

def Segment.add (s : Segment) (c : Chunk) : Segment := { s with toTS := c.toTS, chunks := s.chunks ++ [c] }

/-- `segments`, with the segment being built. -/
def segmentsFrom : Option Segment → List Chunk → List Segment
  | cur, [] => cur.toList
  | cur, c :: cs =>
    if !c.live then segmentsFrom cur cs
    else if c.verifyError ≠ "" then cur.toList ++ segmentsFrom none cs
    else match cur with
      | none => segmentsFrom (some (.single c)) cs
      | some s =>
        if c.fromTS ≠ s.toTS then s :: segmentsFrom (some (.single c)) cs
        else segmentsFrom (some (s.add c)) cs

/-- The segments of a chain, from its chunks ordered by `From`. -/
def segments (chunks : List Chunk) : List Segment := segmentsFrom none chunks

/-- `termAt`: the first and last term of the chunk that holds `ts`; the first chunk also holds its
start. -/
def Segment.termAt (s : Segment) (ts : Timestamp) : Option (Int × Int) :=
  match s.chunks with
  | [] => none
  | c :: rest =>
    if c.fromTS ≤ ts ∧ ts ≤ c.toTS then some (c.firstTerm, c.lastTerm)
    else (rest.find? fun c => c.fromTS < ts && ts ≤ c.toTS).map fun c => (c.firstTerm, c.lastTerm)

/-- `covers`: the segment holds `[T_before, T_after]`, and `T_after` in its term. -/
def Segment.covers (s : Segment) (b : Backup.Record) : Bool :=
  match b.tBefore, b.tAfter with
  | some before, some after =>
    s.fromTS ≤ before.ts && after.ts ≤ s.toTS &&
      (match s.termAt after.ts with
        | none => false
        | some (first, last) => after.term = 0 || (first ≤ after.term && after.term ≤ last))
  | _, _ => false

/-- `chainOf`: the first chain with a segment that covers the base; empty for none. -/
def chainOf (chains : List Chain) (chunks : String → List Chunk) (b : Backup.Record) : String :=
  ((chains.find? fun c => (segments (chunks c.chainID)).any (·.covers b)).map (·.chainID)).getD ""

/-! ## Pins -/

/-- What the pins of the restores in flight named at one moment. -/
structure PinSnapshot where
  bases : List String := []
  chunks : List String := []
  deriving DecidableEq

/-! ## The plan -/

/-- The retention settings of a stream. -/
structure Retention where
  baseKeepCount : Int
  baseKeepDays : Int
  oplogMaxDays : Int
  deriving DecidableEq

structure RetentionPlan where
  deleteBases : List String
  deleteChunks : List String
  deriving DecidableEq

def eligibleBase (b : Backup.Record) : Bool :=
  b.status = .completed && b.instanceScope && b.tBefore.isSome && b.tAfter.isSome

/-- The base as the planner sees it, from `pitrBases`. -/
def baseOf (r : Backup.Record) : Option Base := do
  let tBefore ← r.tBefore
  let tAfter ← r.tAfter
  return { id := r.id, tBefore, tAfter, sizeBytes := r.sizeBytes, encrypted := r.encrypted
           encryptionMode := r.encryptionMode, startedAt := r.startedAt }

/-- A number of days, in an `int64` of nanoseconds. -/
def days (n : Int) : Int := Go.wrap64 (n * (86400 * Go.second))

section Plan

variable (now : Int) (st : Retention) (bases : List Backup.Record) (chains : List Chain)
  (chunks : String → List Chunk) (pins : PinSnapshot)

/-- The completed bases, newest first. -/
def completedBases : List Backup.Record :=
  (bases.filter fun b => b.status = .completed && b.instanceScope).insertionSort
    fun a b => b.startedAt ≤ a.startedAt

/-- The newest base that a chain covers; empty for none. -/
def newestEligible : String :=
  (((completedBases bases).find? fun b =>
    eligibleBase b && chainOf chains chunks b ≠ "").map (·.id)).getD ""

/-- The completed base `b`, number `i` from the newest, is kept. -/
def keepBase (b : Backup.Record) (i : Nat) : Bool :=
  (i : Int) < st.baseKeepCount || b.pinned || pins.bases.contains b.id ||
    b.id = newestEligible bases chains chunks ||
    (0 < st.baseKeepDays && Go.timeSub now b.startedAt < days st.baseKeepDays)

def keptBases : List Backup.Record :=
  ((completedBases bases).zipIdx.filter fun p => keepBase now st bases chains chunks pins p.1 p.2).map
    (·.1)

/-- The oldest `T_before` of the kept eligible bases of a chain. -/
def keptBefore (chainID : String) : Option Timestamp :=
  (keptBases now st bases chains chunks pins).foldl (fun cur b =>
    if chainOf chains chunks b = chainID ∧ chainID ≠ "" ∧ eligibleBase b then
      b.tBefore.map fun before => (cur.map (min before.ts)).getD before.ts
    else cur) none

/-- Chunks that end before it are too old; zero when there is no limit. -/
def maxAge : Timestamp :=
  if 0 < st.oplogMaxDays then ⟨UInt32.ofInt ((now - days st.oplogMaxDays) / Go.second), 0⟩ else {}

/-- The chunk of the chain `c` is deleted. -/
def deleteChunk (c : Chain) (ch : Chunk) : Bool :=
  !(ch.deletedAt.isSome || ch.status = .pruned || pins.chunks.contains ch.id) &&
    (ch.status = .superseded ||
      (match keptBefore now st bases chains chunks pins c.chainID with
        | some cutoff => ch.toTS < cutoff
        | none => !c.isOpen) ||
      (!(maxAge now st).isZero && ch.toTS < maxAge now st))

def planRetention : RetentionPlan where
  deleteBases := ((completedBases bases).zipIdx.filter fun p =>
    !keepBase now st bases chains chunks pins p.1 p.2).map (·.1.id)
  deleteChunks := chains.flatMap fun c =>
    ((chunks c.chainID).filter (deleteChunk now st bases chains chunks pins c)).map (·.id)

end Plan

end MongoRescue.PITR
