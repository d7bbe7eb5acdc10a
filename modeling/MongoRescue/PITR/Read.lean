import MongoRescue.PITR.Types

/-!
# Reading the oplog

`internal/mongoconn/oplog.go`. A member sees a contiguous part of the replica set's majority-committed
oplog (`view`): it may lag behind the end, and it may have truncated the beginning. `copyOplog` copies
the result of the query `{ts: {$gte: From, $lte: To}}` and proves the range's continuity as it goes.
-/

namespace MongoRescue.PITR

structure OplogRange where
  fromTS : Timestamp
  toTS : Timestamp
  checkTerm : Bool := false
  fromTerm : Int := 0
  startInclusive : Bool := false
  deriving DecidableEq

structure OplogStats where
  entries : Nat := 0
  first : OpTime := {}
  last : OpTime := {}
  deriving DecidableEq

inductive ReadErr
  | invalidRange
  /-- The entry at the range's start is missing or has another term. -/
  | gap
  /-- The member has no entry at the range's end yet. -/
  | behind
  /-- An entry is not after the one before it. -/
  | order
  /-- The read itself failed. -/
  | failed
  deriving DecidableEq

/-- The part of the oplog that a member sees: the entries from number `lo` up to number `hi`. -/
def view (log : List OpTime) (lo hi : Nat) : List OpTime := (log.take hi).drop lo

/-- What was copied so far; `prev` is the last entry seen, the start entry included. -/
structure Copy where
  written : List OpTime := []
  stats : OplogStats := {}
  prev : Timestamp := {}
  started : Bool := false

def Copy.write (c : Copy) (op : OpTime) : Copy :=
  { c with
    written := c.written ++ [op]
    stats := ⟨c.stats.entries + 1, if c.stats.entries = 0 then op else c.stats.first, op⟩
    prev := op.ts }

/-- One round of `copyOplog`. -/
def copyEntry (r : OplogRange) (c : Copy) (op : OpTime) : Except ReadErr Copy :=
  if c.started then
    if op.ts ≤ c.prev then .error .order else .ok (c.write op)
  else if op.ts ≠ r.fromTS then .error .gap
  else if r.checkTerm ∧ op.term ≠ r.fromTerm then .error .gap
  else
    let c := { c with started := true, prev := op.ts }
    .ok (if r.startInclusive then c.write op else c)

def copyOplog (r : OplogRange) (docs : List OpTime) : Except ReadErr Copy := do
  let c ← docs.foldlM (copyEntry r) {}
  if !c.started then .error .gap
  else if c.prev ≠ r.toTS then .error .behind
  else return c

/-- `ReadOplog` on a member that sees `entries`. -/
def readOplog (r : OplogRange) (entries : List OpTime) : Except ReadErr Copy :=
  if r.toTS < r.fromTS then .error .invalidRange
  else copyOplog r (entries.filter fun op => r.fromTS ≤ op.ts && op.ts ≤ r.toTS)

/-- `EntryAt`: the term of the entry at `ts`. -/
def entryAt (entries : List OpTime) (ts : Timestamp) : Option Int :=
  (entries.find? (·.ts = ts)).map (·.term)

def entryAtOrAfter (entries : List OpTime) (ts : Timestamp) : Option OpTime :=
  entries.find? (ts ≤ ·.ts)

/-- The oplog of a member at one moment, and the replica set it belongs to. -/
structure OplogWindow where
  oldest : Timestamp
  newest : Timestamp
  majorityOpTime : OpTime
  replicaSet : String
  replicaSetID : String
  deriving DecidableEq

end MongoRescue.PITR
